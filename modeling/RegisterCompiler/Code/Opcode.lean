import RegisterCompiler.Bytes

/-!
# Operation codes

The forty operations of the register machine, in the order of their codes. In the comments `R(i)` is
register `i`, `K(i)` constant `i`, `U(i)` upvalue `i`, and `RK(x)` a constant or a register.
-/

namespace RegisterCompiler

inductive Opcode where
  /-- `A B`: `R(A) := R(B)`. -/
  | move
  /-- `A Bx`: `R(A) := K(Bx)`. -/
  | loadK
  /-- `A`: `R(A) := K(Ax)` for the `Ax` of the next instruction. -/
  | loadKX
  /-- `A B C`: `R(A) := B ≠ 0`; with `C ≠ 0` the next instruction is skipped. -/
  | loadBool
  /-- `A B`: `R(A), …, R(A+B) := nil`. -/
  | loadNil
  /-- `A B`: `R(A) := U(B)`. -/
  | getUpval
  /-- `A B C`: `R(A) := U(B)[RK(C)]`. -/
  | getTabUp
  /-- `A B C`: `R(A) := R(B)[RK(C)]`. -/
  | getTable
  /-- `A B C`: `U(A)[RK(B)] := RK(C)`. -/
  | setTabUp
  /-- `A B`: `U(B) := R(A)`. -/
  | setUpval
  /-- `A B C`: `R(A)[RK(B)] := RK(C)`. -/
  | setTable
  /-- `A B C`: `R(A) := {}` with size hints `B` and `C`. -/
  | newTable
  /-- `A B C`: `R(A+1) := R(B); R(A) := R(B)[RK(C)]`. -/
  | self
  /-- `A B C`: `R(A) := RK(B) + RK(C)`. -/
  | add
  /-- `A B C`: `R(A) := RK(B) - RK(C)`. -/
  | sub
  /-- `A B C`: `R(A) := RK(B) * RK(C)`. -/
  | mul
  /-- `A B C`: `R(A) := RK(B) / RK(C)`. -/
  | div
  /-- `A B C`: `R(A) := RK(B) % RK(C)`. -/
  | mod
  /-- `A B C`: `R(A) := RK(B) ^ RK(C)`. -/
  | pow
  /-- `A B`: `R(A) := -R(B)`. -/
  | unm
  /-- `A B`: `R(A) := not R(B)`. -/
  | not
  /-- `A B`: `R(A) := #R(B)`. -/
  | len
  /-- `A B C`: `R(A) := R(B) .. … .. R(C)`. -/
  | concat
  /-- `A sBx`: jump by `sBx`; with `A ≠ 0` close the upvalues of registers from `A-1` on. -/
  | jmp
  /-- `A B C`: if `(RK(B) == RK(C)) ≠ A` then skip. -/
  | eq
  /-- `A B C`: if `(RK(B) < RK(C)) ≠ A` then skip. -/
  | lt
  /-- `A B C`: if `(RK(B) <= RK(C)) ≠ A` then skip. -/
  | le
  /-- `A C`: if the truth of `R(A)` is not `C` then skip. -/
  | test
  /-- `A B C`: if the truth of `R(B)` is `C` then `R(A) := R(B)` else skip. -/
  | testSet
  /-- `A B C`: `R(A), …, R(A+C-2) := R(A)(R(A+1), …, R(A+B-1))`. -/
  | call
  /-- `A B C`: `return R(A)(R(A+1), …, R(A+B-1))`. -/
  | tailCall
  /-- `A B`: `return R(A), …, R(A+B-2)`. -/
  | ret
  /-- `A sBx`: `R(A) += R(A+2)`; while within the limit `R(A+1)`, jump and `R(A+3) := R(A)`. -/
  | forLoop
  /-- `A sBx`: `R(A) -= R(A+2)` and jump. -/
  | forPrep
  /-- `A C`: `R(A+3), …, R(A+2+C) := R(A)(R(A+1), R(A+2))`. -/
  | tForCall
  /-- `A sBx`: if `R(A+1)` is not nil then `R(A) := R(A+1)` and jump. -/
  | tForLoop
  /-- `A B C`: `R(A)[(C-1)*50+i] := R(A+i)` for `1 ≤ i ≤ B`. -/
  | setList
  /-- `A Bx`: `R(A) :=` a closure of nested function `Bx`. -/
  | closure
  /-- `A B`: `R(A), …, R(A+B-2) :=` the extra arguments. -/
  | vararg
  /-- `Ax`: a large operand of the instruction before. -/
  | extraArg
deriving DecidableEq

/-- The layout of an instruction's operands. -/
inductive Layout where
  | abc
  | abx
  | asbx
  | ax
deriving DecidableEq

/-- How an operand `B` or `C` is used. -/
inductive OperandUse where
  | unused
  /-- A plain number. -/
  | number
  /-- A register or a jump offset. -/
  | register
  /-- A constant or a register. -/
  | constant
deriving DecidableEq

/-- What is known about an operation. -/
structure OpInfo where
  name : Bytes
  mode : Layout
  b : OperandUse
  c : OperandUse
  /-- The operation writes register `A`. -/
  setsA : Bool
  /-- The operation is a test: the next instruction is a jump. -/
  isTest : Bool

namespace Opcode

def all : Array Opcode := #[
  .move, .loadK, .loadKX, .loadBool, .loadNil, .getUpval, .getTabUp, .getTable, .setTabUp,
  .setUpval, .setTable, .newTable, .self, .add, .sub, .mul, .div, .mod, .pow, .unm, .not, .len,
  .concat, .jmp, .eq, .lt, .le, .test, .testSet, .call, .tailCall, .ret, .forLoop, .forPrep,
  .tForCall, .tForLoop, .setList, .closure, .vararg, .extraArg]

def code (op : Opcode) : Nat :=
  op.ctorIdx

def ofCode? (n : Nat) : Option Opcode :=
  all[n]?

def info : Opcode → OpInfo
  | .move => ⟨bytes "MOVE", .abc, .register, .unused, true, false⟩
  | .loadK => ⟨bytes "LOADK", .abx, .constant, .unused, true, false⟩
  | .loadKX => ⟨bytes "LOADKX", .abx, .unused, .unused, true, false⟩
  | .loadBool => ⟨bytes "LOADBOOL", .abc, .number, .number, true, false⟩
  | .loadNil => ⟨bytes "LOADNIL", .abc, .number, .unused, true, false⟩
  | .getUpval => ⟨bytes "GETUPVAL", .abc, .number, .unused, true, false⟩
  | .getTabUp => ⟨bytes "GETTABUP", .abc, .number, .constant, true, false⟩
  | .getTable => ⟨bytes "GETTABLE", .abc, .register, .constant, true, false⟩
  | .setTabUp => ⟨bytes "SETTABUP", .abc, .constant, .constant, false, false⟩
  | .setUpval => ⟨bytes "SETUPVAL", .abc, .number, .unused, false, false⟩
  | .setTable => ⟨bytes "SETTABLE", .abc, .constant, .constant, false, false⟩
  | .newTable => ⟨bytes "NEWTABLE", .abc, .number, .number, true, false⟩
  | .self => ⟨bytes "SELF", .abc, .register, .constant, true, false⟩
  | .add => ⟨bytes "ADD", .abc, .constant, .constant, true, false⟩
  | .sub => ⟨bytes "SUB", .abc, .constant, .constant, true, false⟩
  | .mul => ⟨bytes "MUL", .abc, .constant, .constant, true, false⟩
  | .div => ⟨bytes "DIV", .abc, .constant, .constant, true, false⟩
  | .mod => ⟨bytes "MOD", .abc, .constant, .constant, true, false⟩
  | .pow => ⟨bytes "POW", .abc, .constant, .constant, true, false⟩
  | .unm => ⟨bytes "UNM", .abc, .register, .unused, true, false⟩
  | .not => ⟨bytes "NOT", .abc, .register, .unused, true, false⟩
  | .len => ⟨bytes "LEN", .abc, .register, .unused, true, false⟩
  | .concat => ⟨bytes "CONCAT", .abc, .register, .register, true, false⟩
  | .jmp => ⟨bytes "JMP", .asbx, .register, .unused, false, false⟩
  | .eq => ⟨bytes "EQ", .abc, .constant, .constant, false, true⟩
  | .lt => ⟨bytes "LT", .abc, .constant, .constant, false, true⟩
  | .le => ⟨bytes "LE", .abc, .constant, .constant, false, true⟩
  | .test => ⟨bytes "TEST", .abc, .unused, .number, false, true⟩
  | .testSet => ⟨bytes "TESTSET", .abc, .register, .number, true, true⟩
  | .call => ⟨bytes "CALL", .abc, .number, .number, true, false⟩
  | .tailCall => ⟨bytes "TAILCALL", .abc, .number, .number, true, false⟩
  | .ret => ⟨bytes "RETURN", .abc, .number, .unused, false, false⟩
  | .forLoop => ⟨bytes "FORLOOP", .asbx, .register, .unused, true, false⟩
  | .forPrep => ⟨bytes "FORPREP", .asbx, .register, .unused, true, false⟩
  | .tForCall => ⟨bytes "TFORCALL", .abc, .unused, .number, false, false⟩
  | .tForLoop => ⟨bytes "TFORLOOP", .asbx, .register, .unused, true, false⟩
  | .setList => ⟨bytes "SETLIST", .abc, .number, .number, false, false⟩
  | .closure => ⟨bytes "CLOSURE", .abx, .number, .unused, true, false⟩
  | .vararg => ⟨bytes "VARARG", .abc, .number, .unused, true, false⟩
  | .extraArg => ⟨bytes "EXTRAARG", .ax, .number, .number, false, false⟩

def name (op : Opcode) : Bytes :=
  op.info.name

/-- The operation is a test, which the next instruction, a jump, belongs to. -/
def isTest (op : Opcode) : Bool :=
  op.info.isTest

end Opcode

/-- What is known about the operation of a code. A code without operation has a name that shows
it in upper-case hexadecimal digits, and no used operand. -/
def OpInfo.ofCode (n : Nat) : OpInfo :=
  match Opcode.ofCode? n with
  | some op => op.info
  | none =>
    let digit (k : Nat) : UInt8 := UInt8.ofNat (if k < 10 then 48 + k else 55 + k)
    ⟨bytes "UNKNOWN_" ++ [digit (n / 16 % 16), digit (n % 16)], .abc, .unused, .unused, false, false⟩

end RegisterCompiler
