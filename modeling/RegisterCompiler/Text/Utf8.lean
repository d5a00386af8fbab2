import RegisterCompiler.Bytes

/-!
# UTF-8

Overlong forms, surrogates and values past `0x10ffff` are refused.
-/

namespace RegisterCompiler.Utf8

def isTail (b : UInt8) : Bool :=
  b.toNat / 64 == 2

def decode? (s : Bytes) : Option (Nat × Nat) :=
  match s with
  | [] => none
  | b₀ :: rest =>
    let n := b₀.toNat
    if n < 0x80 then some (n, 1)
    else if n < 0xc2 then none
    else if n < 0xe0 then
      match rest with
      | b₁ :: _ =>
        if isTail b₁ then some ((n - 0xc0) * 64 + b₁.toNat % 64, 2) else none
      | [] => none
    else if n < 0xf0 then
      match rest with
      | b₁ :: b₂ :: _ =>
        let c := (n - 0xe0) * 4096 + b₁.toNat % 64 * 64 + b₂.toNat % 64
        if isTail b₁ && isTail b₂ && c ≥ 0x800 && !(0xd800 ≤ c && c ≤ 0xdfff) then some (c, 3)
        else none
      | _ => none
    else if n < 0xf5 then
      match rest with
      | b₁ :: b₂ :: b₃ :: _ =>
        let c := (n - 0xf0) * 262144 + b₁.toNat % 64 * 4096 + b₂.toNat % 64 * 64 + b₃.toNat % 64
        if isTail b₁ && isTail b₂ && isTail b₃ && c ≥ 0x10000 && c ≤ 0x10ffff then some (c, 4)
        else none
      | _ => none
    else none

def validWithin : (fuel : Nat) → Bytes → Bool
  | _, [] => true
  | 0, _ :: _ => false
  | k + 1, s =>
    match decode? s with
    | some (_, w) => validWithin k (s.drop w)
    | none => false

def valid (s : Bytes) : Bool :=
  validWithin s.length s

def encode (c : Nat) : Bytes :=
  let tail (k : Nat) : UInt8 := UInt8.ofNat (0x80 + c / k % 64)
  if c < 0x80 then [UInt8.ofNat c]
  else if c < 0x800 then [UInt8.ofNat (0xc0 + c / 64), tail 1]
  else if c < 0x10000 then [UInt8.ofNat (0xe0 + c / 4096), tail 64, tail 1]
  else [UInt8.ofNat (0xf0 + c / 262144), tail 4096, tail 64, tail 1]

end RegisterCompiler.Utf8
