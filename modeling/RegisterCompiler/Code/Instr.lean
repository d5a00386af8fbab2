import RegisterCompiler.Code.Opcode

/-!
# Instruction words

An instruction is a word of 32 bits. Low bits first it holds the operation code in 6 bits and the
operands `A` in 8, `C` in 9 and `B` in 9. `Bx` spans `C` and `B`, `Ax` spans all three operands, and
`sBx` is `Bx` minus the bias `maxSBx`. An operand that does not fit reaches into the fields above it.
-/

namespace RegisterCompiler

structure Field where
  weight : Nat
  bound : Nat

namespace Field

/-- The operation code: 6 bits from bit 0 on. -/
@[inline] def op : Field := ⟨1, 64⟩
/-- Operand `A`: 8 bits from bit 6 on. -/
@[inline] def a : Field := ⟨64, 256⟩
/-- Operand `C`: 9 bits from bit 14 on. -/
@[inline] def c : Field := ⟨16384, 512⟩
/-- Operand `B`: 9 bits from bit 23 on. -/
@[inline] def b : Field := ⟨8388608, 512⟩
/-- Operand `Bx`: 18 bits from bit 14 on. -/
@[inline] def bx : Field := ⟨16384, 262144⟩
/-- Operand `Ax`: 26 bits from bit 6 on. -/
@[inline] def ax : Field := ⟨64, 67108864⟩

end Field

def maxA : Int := 255
def maxB : Int := 511
def maxC : Int := 511
def maxBx : Int := 262143
def maxSBx : Int := 131071
def maxAx : Int := 67108863
def maxIndexRK : Int := 255
def multRet : Int := -1
def fieldsPerFlush : Int := 50

/-- An operand that names a constant or a register names a constant: its bit 256 is set. -/
def isConstantRK (rk : Int) : Bool :=
  rk / 256 % 2 == 1

/-- The index of the constant that an operand names: bit 256 is cleared. -/
def constantOfRK (rk : Int) : Int :=
  if isConstantRK rk then rk - 256 else rk

/-- The operand that names constant `k`: bit 256 is set. -/
def asConstantRK (k : Int) : Int :=
  if isConstantRK k then k else k + 256

structure Instr where
  word : UInt32
deriving DecidableEq

namespace Instr

@[inline] def get (f : Field) (i : Instr) : Nat :=
  i.word.toNat / f.weight % f.bound

def set (f : Field) (v : Int) (i : Instr) : Instr :=
  ⟨UInt32.ofNat (i.word.toNat - i.get f * f.weight + (v % f.bound).toNat * f.weight)⟩

@[inline] def opcode (i : Instr) : Nat := i.get .op
def op? (i : Instr) : Option Opcode := Opcode.ofCode? i.opcode
@[inline] def a (i : Instr) : Nat := i.get .a
@[inline] def b (i : Instr) : Nat := i.get .b
@[inline] def c (i : Instr) : Nat := i.get .c
@[inline] def bx (i : Instr) : Nat := i.get .bx
@[inline] def sbx (i : Instr) : Int := (i.bx : Int) - maxSBx
@[inline] def ax (i : Instr) : Nat := i.get .ax

def setOpcode (code : Int) (i : Instr) : Instr := i.set .op code
def setA (v : Int) (i : Instr) : Instr := i.set .a v
def setB (v : Int) (i : Instr) : Instr := i.set .b v
def setC (v : Int) (i : Instr) : Instr := i.set .c v
def setBx (v : Int) (i : Instr) : Instr := i.set .bx v
def setSBx (v : Int) (i : Instr) : Instr := i.set .bx (v + maxSBx)

/-- The operand `v` modulo `2 ^ 32`, moved to its field. Bits past the word are lost. -/
def place (f : Field) (v : Int) : UInt32 :=
  UInt32.ofInt v * UInt32.ofNat f.weight

def abc (code : Nat) (a b c : Int) : Instr :=
  ⟨UInt32.ofNat code ||| place .a a ||| place .b b ||| place .c c⟩

def abx (code : Nat) (a bx : Int) : Instr :=
  ⟨UInt32.ofNat code ||| place .a a ||| place .bx bx⟩

def asbx (code : Nat) (a sbx : Int) : Instr :=
  abx code a (sbx + maxSBx)

def ofAx (code : Nat) (ax : Int) : Instr :=
  ⟨UInt32.ofNat code ||| place .ax ax⟩

def shownArg (mode : OperandUse) (x : Nat) : Int :=
  if mode = .constant ∧ isConstantRK x then -1 - constantOfRK x else x

/-- The operation's name in a column of nine, then the operands that it uses. -/
def text (i : Instr) : Bytes :=
  let info := OpInfo.ofCode i.opcode
  let arg (n : Int) : Bytes := bytes " " ++ Bytes.ofInt n
  let name := Bytes.padRight 9 info.name
  match info.mode with
  | .abx => name ++ arg i.a ++ arg (if info.b = .constant then -1 - (i.bx : Int) else i.bx)
  | .asbx => name ++ arg i.a ++ arg i.sbx
  | .ax => name ++ arg i.ax
  | .abc =>
    name ++ arg i.a ++
      (if info.b = .unused then [] else arg (shownArg info.b i.b)) ++
      (if info.c = .unused then [] else arg (shownArg info.c i.c))

end Instr

end RegisterCompiler
