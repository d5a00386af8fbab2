import RegisterCompiler.Number

/-!
# Numerals
-/

namespace RegisterCompiler

/-- The bytes of a numeral in which `e₁` and `e₂` mark the exponent: hexadecimal digits, points, and
exponent marks with an optional sign. Whether they make sense is decided later. -/
def numeralLength (e₁ e₂ : Char) : Bytes → Nat
  | [] => 0
  | b :: r =>
    if b == e₁.toUInt8 || b == e₂.toUInt8 then
      match r with
      | [] => 1
      | s :: r' =>
        if s == '+'.toUInt8 || s == '-'.toUInt8 then 2 + numeralLength e₁ e₂ r'
        else 1 + numeralLength e₁ e₂ (s :: r')
    else if (Bytes.hexValue? b).isSome || b == '.'.toUInt8 then 1 + numeralLength e₁ e₂ r
    else 0

def digitsValue (ds : Bytes) : Nat :=
  ds.foldl (fun n d => n * 10 + (d.toNat - 48)) 0

def splitSign (s : Bytes) : Bool × Bytes :=
  match s with
  | 45 :: s => (true, s)
  | 43 :: s => (false, s)
  | s => (false, s)

/-- What an optional sign and at least one digit stand for, if nothing else is there; `count` is what
the digits stand for. -/
def signedBy (count : Bytes → Nat) (s : Bytes) : Option Int :=
  let (negative, ds) := splitSign s
  if ds.isEmpty || !ds.all Bytes.isDigit then none
  else some (if negative then -count ds else count ds)

def signedInteger? (s : Bytes) : Option Int :=
  signedBy digitsValue s

/-- The size of a decimal exponent. Digits count until they come to ten thousand, and the others are
passed over. -/
def exponentSize (ds : Bytes) : Nat :=
  ds.foldl (fun n d => if n < 10000 then n * 10 + (d.toNat - 48) else n) 0

/-- The double that digits stand for, the first of them not zero, with the point after `whole` of
them. Nineteen digits settle it if rounding them up makes no difference. If not, 800 digits count, at
most that many of them before the point, and of the others only whether all are zeros. -/
def roundDigits (ds : Bytes) (whole exponent : Int) : Number :=
  let lead := ds.take 19
  let unit := whole + exponent - lead.length
  let below := Number.ofDecimal (digitsValue lead) unit
  if (ds.drop 19).all (· == 48) || Number.ofDecimal (digitsValue lead + 1) unit == below then below
  else
    let kept := ds.take 800
    let more := if (ds.drop 800).all (· == 48) then 0 else 1
    .ofDecimal (digitsValue kept * 10 + more) (min whole 800 + exponent - kept.length - 1)

/-- The value of a decimal numeral: digits around at most one point, at least one of them, and an
optional exponent. -/
def decimalNumeral? (s : Bytes) : Option Number :=
  let whole := s.takeWhile Bytes.isDigit
  let afterWhole := s.drop whole.length
  let (fraction, afterFraction) :=
    match afterWhole with
    | 46 :: r => (r.takeWhile Bytes.isDigit, r.dropWhile Bytes.isDigit)
    | r => ([], r)
  let mantissa := whole ++ fraction
  if mantissa.isEmpty then none
  else
    let digits := mantissa.dropWhile (· == 48)
    let point : Int := (digits.length : Int) - fraction.length
    match afterFraction with
    | [] => some (roundDigits digits point 0)
    | e :: r =>
      if e == 'e'.toUInt8 || e == 'E'.toUInt8 then
        (signedBy exponentSize r).map (roundDigits digits point)
      else none

/-- The mantissa of a hexadecimal numeral as it is read digit by digit. -/
structure HexMantissa where
  value : Float
  exponent : Int64
  digits : Nat
  seenPoint : Bool

/-- Reads digits and at most one point; `none` for a second point. The rest starts at the first
byte that is neither. -/
def hexMantissa? : HexMantissa → Bytes → Option (HexMantissa × Bytes)
  | m, [] => some (m, [])
  | m, b :: r =>
    if b == '.'.toUInt8 then
      if m.seenPoint then none else hexMantissa? { m with seenPoint := true } r
    else
      match Bytes.hexValue? b with
      | none => some (m, b :: r)
      | some d =>
        hexMantissa?
          { value := m.value * 16 + Float.ofNat d
            exponent := if m.seenPoint then m.exponent - 4 else m.exponent
            digits := m.digits + 1
            seenPoint := m.seenPoint } r

/-- `x * 2 ^ e`. The exponent of the result is counted in 64 bits, so an exponent near the end of
their range comes round to the other end. -/
def scaled (x : Float) (e : Int64) : Number :=
  let bits := Number.ofFloat x
  match bits.shape with
  | .finite m q =>
    if m == 0 then bits
    else
      let top : Int := q + Nat.log2 m
      let total := e + Int64.ofInt top
      if total < -1075 then Number.zero
      else if total > 1023 then Number.infinity
      else .ofFloat (x.scaleB (total.toInt - top))
  | _ => bits

/-- The value of a hexadecimal numeral without its `0x`. The exponent must fit in 64 bits. -/
def hexNumeral? (s : Bytes) : Option Number :=
  match hexMantissa? ⟨0, 0, 0, false⟩ s with
  | none => none
  | some (m, rest) =>
    if m.digits == 0 then none
    else
      match rest with
      | [] => some (scaled m.value m.exponent)
      | p :: r =>
        if p == 'p'.toUInt8 || p == 'P'.toUInt8 then
          let r := if r.head? == some '+'.toUInt8 then r.drop 1 else r
          match signedInteger? r with
          | some e =>
            if -0x8000000000000000 ≤ e ∧ e < 0x8000000000000000 then
              some (scaled m.value (m.exponent + Int64.ofInt e))
            else none
          | none => none
        else none

def numeral? (s : Bytes) : Option Number :=
  match s with
  | 48 :: x :: d :: r =>
    if x == 'x'.toUInt8 || x == 'X'.toUInt8 then hexNumeral? (d :: r) else decimalNumeral? s
  | _ => decimalNumeral? s

end RegisterCompiler
