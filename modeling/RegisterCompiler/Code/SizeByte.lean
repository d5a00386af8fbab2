/-!
# Table sizes in one byte

A size hint is a byte `eeeeexxx`: the number `xxx` when the exponent `eeeee` is zero, and
`1xxx * 2 ^ (eeeee - 1)` otherwise.
-/

namespace RegisterCompiler

/-- Halves `x`, rounding up, until it is below 16; `e` counts the halvings. -/
def halve : (fuel : Nat) → (x e : Nat) → Nat × Nat
  | 0, x, e => (x, e)
  | k + 1, x, e => if x ≥ 16 then halve k ((x + 1) / 2) (e + 1) else (x, e)

/-- The byte of the least representable size that is not below `n`. A number below 8, a negative
one too, is its own byte. -/
def sizeByte (n : Int) : Int :=
  if n < 8 then n
  else
    let r := halve n.toNat n.toNat 0
    ((r.2 + 1) * 8 ||| (r.1 - 8) : Nat)

/-- The size that a byte stands for; of a longer number the five bits above the low three are the
exponent. -/
def sizeOfByte (b : Int) : Int :=
  let e := (b / 8 % 32).toNat
  if e = 0 then b else (b % 8 + 8) * (Nat.pow 2 (e - 1) : Nat)

end RegisterCompiler
