import RegisterCompiler.Code.Arith
import RegisterCompiler.Generator.Value
import RegisterCompiler.Source.Operator

/-!
# Operators

Arithmetic on numerals is done at once, unless the result is not the same at all times. An operator
between operands makes code before and after its right operand is compiled.
-/

namespace RegisterCompiler

def Number.isZero (x : Number) : Bool :=
  x.bits = 0 ∨ x.bits = 0x8000000000000000

/-- The operand that `op` makes of two numerals. Division and remainder by zero are not folded, nor
is a result that is no number. -/
def foldNumbers (op : Opcode) (e₁ e₂ : Operand) : Option Operand := do
  let f ← op.arith?
  let x ← e₁.numeral?
  let y ← e₂.numeral?
  if (op = .div ∨ op = .mod) ∧ y.isZero then none
  else
    let r := f x y
    if r.isNaN then none else some { e₁ with kind := .number r }

namespace Gen

def freeOperands (e₁ : Operand) (rk₁ : Int) (e₂ : Operand) (rk₂ : Int) : Gen Unit := do
  if rk₁ > rk₂ then
    releaseOperand e₁
    releaseOperand e₂
  else
    releaseOperand e₂
    releaseOperand e₁

def arith₁ (op : Opcode) (e : Operand) (line : Int) : Gen Operand := do
  let (e, rk) ← toRK e
  freeOperands e rk (.number .zero) 0
  let at_ ← emitABC op 0 rk 0
  moveLastToLine line
  return { e with info := at_, kind := .relocatable }

/-- One instruction with two operands, on a line, or the result itself if it is known. -/
def arith₂ (op : Opcode) (e₁ e₂ : Operand) (line : Int) : Gen Operand := do
  match foldNumbers op e₁ e₂ with
  | some e => return e
  | none =>
    let (e₂, rk₂) ← toRK e₂
    let (e₁, rk₁) ← toRK e₁
    freeOperands e₁ rk₁ e₂ rk₂
    let at_ ← emitABC op 0 rk₁ rk₂
    moveLastToLine line
    return { e₁ with info := at_, kind := .relocatable }

/-- A comparison. `a > b` is compiled as `b < a`, and `a ~= b` as `a == b` with the opposite
outcome. -/
def compare (op : Opcode) (holds : Bool) (e₁ e₂ : Operand) : Gen Operand := do
  let (e₁, rk₁) ← toRK e₁
  let (e₂, rk₂) ← toRK e₂
  releaseOperand e₂
  releaseOperand e₁
  let j ←
    if holds then testJump op 1 rk₁ rk₂
    else if op = .eq then testJump op 0 rk₁ rk₂
    else testJump op 1 rk₂ rk₁
  return .plain .jump (← listHead j)

/-- Negation. The jumps that leave the operand change places, and store nothing any more. -/
def negate (e : Operand) : Gen Operand := do
  let e ← discharge e
  let e ←
    match e.kind with
    | .nil | .false => pure { e with kind := .true }
    | .constant | .number _ | .true => pure { e with kind := .false }
    | .jump =>
      flipTest e
      pure e
    | .relocatable | .nonRelocatable =>
      let e ← dischargeToAny e
      releaseOperand e
      pure { e with info := ← emitABC .not 0 e.info 0, kind := .relocatable }
    | k => broken (.negatable k)
  let e := { e with whenTrue := e.whenFalse, whenFalse := e.whenTrue }
  dropValues e.whenFalse
  dropValues e.whenTrue
  return e

def unary (op : UnaryOp) (e : Operand) (line : Int) : Gen Operand := do
  match op with
  | .minus =>
    match e.numeral? with
    | some x => return { e with kind := .number x.neg }
    | none => arith₁ .unm (← toAnyRegister e) line
  | .not => negate e
  | .len => arith₁ .len (← toAnyRegister e) line

def prepareLeft (op : BinaryOp) (e : Operand) : Gen Operand := do
  let named : Gen Operand := return (← toRK e).1
  match op.family with
  | .conjunction => continueIfTrue e
  | .disjunction => continueIfFalse e
  | .concat => toNextRegister e
  | .arith _ => if e.isPlainNumber then return e else named
  | .compare .. => named

/-- Concatenation. If the right operand is one itself, its instruction takes in the left operand. -/
def concatenate (e₁ e₂ : Operand) (line : Int) : Gen Operand := do
  let e₂ ← toValue e₂
  let apart : Gen Operand := do
    arith₂ .concat e₁ (← toNextRegister e₂) line
  match e₂.kind with
  | .relocatable =>
    let i ← instrAt e₂.info
    if i.op? = some .concat then
      require (e₁.info == (i.b : Int) - 1) .concatAdjacent
      releaseOperand e₁
      updateInstr e₂.info (·.setB e₁.info)
      return { e₁ with info := e₂.info, kind := .relocatable }
    else apart
  | _ => apart

def binary (op : BinaryOp) (e₁ e₂ : Operand) (line : Int) : Gen Operand := do
  match op.family with
  | .conjunction =>
    let e₂ ← discharge e₂
    require (e₁.whenTrue == .empty) .noTrueJumps
    return { e₂ with whenFalse := ← concat e₂.whenFalse e₁.whenFalse }
  | .disjunction =>
    let e₂ ← discharge e₂
    require (e₁.whenFalse == .empty) .noFalseJumps
    return { e₂ with whenTrue := ← concat e₂.whenTrue e₁.whenTrue }
  | .concat => concatenate e₁ e₂ line
  | .arith op => arith₂ op e₁ e₂ line
  | .compare op holds => compare op holds e₁ e₂

end Gen

end RegisterCompiler
