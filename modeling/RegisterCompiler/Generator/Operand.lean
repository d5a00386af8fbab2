import RegisterCompiler.Code.Opcode
import RegisterCompiler.Number.Decimal

/-!
# Operands

Jumps whose target is not known yet form a chain through the offsets of the jump instructions
themselves, so a `JumpList` is the place of its first jump. An `Operand` is an expression as far as it is
compiled: where its value is, and the jumps that leave it when it turns out true or false.
-/

namespace RegisterCompiler

/-- A chain of jumps, by the place of its first one. -/
structure JumpList where
  head : Option Int
deriving DecidableEq

namespace JumpList

def empty : JumpList := ⟨none⟩

def ofHead (pc : Int) : JumpList := ⟨some pc⟩

def text (l : JumpList) : Bytes :=
  match l.head with
  | none => bytes "none"
  | some pc => bytes "@" ++ Bytes.ofInt pc

end JumpList

/-- Where a value is; the number that goes with it is the operand's `info`. -/
inductive Operand.Kind where
  | void
  | nil
  | true
  | false
  | constant
  | number (value : Number)
  | nonRelocatable
  | local
  | upvalue
  /-- In a table, which is in upvalue or register `info`, under a key that is a constant or in a
  register. -/
  | indexed (inUpvalue : Bool) (key : Int)
  | jump
  /-- The result of the instruction at `info`, which can be any register. -/
  | relocatable
  | call
  | vararg
deriving DecidableEq

structure Operand where
  kind : Operand.Kind
  info : Int
  whenTrue : JumpList
  whenFalse : JumpList
deriving DecidableEq

namespace Operand

namespace Kind

def names : List Bytes := [
  bytes "void", bytes "nil", bytes "true", bytes "false", bytes "constant", bytes "number",
  bytes "nonrelocatable", bytes "local", bytes "upvalue", bytes "indexed", bytes "jump",
  bytes "relocatable", bytes "call", bytes "vararg"]

def nameOfCode (n : Nat) : Bytes :=
  match names[n]? with
  | some s => s
  | none => bytes "ExprKind(" ++ Bytes.ofNat n ++ bytes ")"

def name (k : Kind) : Bytes :=
  nameOfCode k.ctorIdx

end Kind

def plain (kind : Kind) (info : Int) : Operand :=
  ⟨kind, info, .empty, .empty⟩

def void : Operand := plain .void 0

def number (x : Number) : Operand := plain (.number x) 0

/-- The operand without jumps that has the kind with a code. The numeral is zero, and the indexed
operand is key 0 of register 0. -/
def ofCode? (code : Nat) (info : Int) : Option Operand :=
  match code with
  | 0 => some (plain .void info)
  | 1 => some (plain .nil info)
  | 2 => some (plain .true info)
  | 3 => some (plain .false info)
  | 4 => some (plain .constant info)
  | 5 => some (number .zero)
  | 6 => some (plain .nonRelocatable info)
  | 7 => some (plain .local info)
  | 8 => some (plain .upvalue info)
  | 9 => some (plain (.indexed Bool.false 0) 0)
  | 10 => some (plain .jump info)
  | 11 => some (plain .relocatable info)
  | 12 => some (plain .call info)
  | 13 => some (plain .vararg info)
  | _ => none

def numeral? (e : Operand) : Option Number :=
  match e.kind with
  | .number x => if e.whenTrue = .empty ∧ e.whenFalse = .empty then some x else none
  | _ => none

def isPlainNumber (e : Operand) : Bool :=
  e.numeral?.isSome

def carriesJumps (e : Operand) : Bool :=
  e.whenTrue != e.whenFalse

def isOpen (e : Operand) : Bool :=
  match e.kind with
  | .call | .vararg => Bool.true
  | _ => Bool.false

def isVariable (e : Operand) : Bool :=
  match e.kind with
  | .local | .upvalue | .indexed .. => Bool.true
  | _ => Bool.false

/-- Numerals in operand texts: as few digits as read back, an exponent from `1e6` on. -/
def numeralStyle : Style where
  digits := none
  wide := 6
  plusInfinity := "+Inf"
  minusInfinity := "-Inf"
  nan := "NaN"

def text (e : Operand) : Bytes :=
  let place :=
    match e.kind with
    | .number x => bytes "number(" ++ x.render numeralStyle ++ bytes ")"
    | .indexed _ key =>
      bytes "indexed(" ++ Bytes.ofInt e.info ++ bytes "[" ++ Bytes.ofInt key ++ bytes "])"
    | k => k.name ++ bytes "(" ++ Bytes.ofInt e.info ++ bytes ")"
  place ++ bytes " t=" ++ e.whenTrue.text ++ bytes " f=" ++ e.whenFalse.text

end Operand

end RegisterCompiler
