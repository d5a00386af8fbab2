import RegisterCompiler.Code.Opcode
import RegisterCompiler.Source.Token

/-!
# Operators

An operator takes the operand on its left if its left priority exceeds that of the operator before.
-/

namespace RegisterCompiler

inductive UnaryOp where
  | minus
  | not
  | len
deriving DecidableEq

inductive BinaryOp where
  | add | sub | mul | div | mod | pow | concat | eq | lt | le | ne | gt | ge | and | or
deriving DecidableEq

namespace UnaryOp

def all : List UnaryOp := [.minus, .not, .len]

def ofCode? (n : Nat) : Option UnaryOp :=
  all[n]?

def ofKind? : Token.Kind → Option UnaryOp
  | .symbol .minus => some .minus
  | .word .kNot => some .not
  | .symbol .hash => some .len
  | _ => none

def text : UnaryOp → Bytes
  | .minus => bytes "-"
  | .not => bytes "not"
  | .len => bytes "#"

end UnaryOp

/-- How an operator between two operands is compiled. -/
inductive Family where
  | arith (op : Opcode)
  | concat
  /-- A test with a jump. With `holds = false` the test is negated if it is for equality, and has
  its operands exchanged otherwise. -/
  | compare (op : Opcode) (holds : Bool)
  | conjunction
  | disjunction

/-- Operators before an operand bind tighter than all others but exponentiation. -/
def unaryPriority : Nat := 8

namespace BinaryOp

def all : List BinaryOp :=
  [.add, .sub, .mul, .div, .mod, .pow, .concat, .eq, .lt, .le, .ne, .gt, .ge, .and, .or]

def ofCode? (n : Nat) : Option BinaryOp :=
  all[n]?

def ofKind? : Token.Kind → Option BinaryOp
  | .symbol .plus => some .add
  | .symbol .minus => some .sub
  | .symbol .star => some .mul
  | .symbol .slash => some .div
  | .symbol .percent => some .mod
  | .symbol .caret => some .pow
  | .symbol .concat => some .concat
  | .symbol .equal => some .eq
  | .symbol .less => some .lt
  | .symbol .lessEqual => some .le
  | .symbol .notEqual => some .ne
  | .symbol .greater => some .gt
  | .symbol .greaterEqual => some .ge
  | .word .kAnd => some .and
  | .word .kOr => some .or
  | _ => none

def text : BinaryOp → Bytes
  | .add => bytes "+"
  | .sub => bytes "-"
  | .mul => bytes "*"
  | .div => bytes "/"
  | .mod => bytes "%"
  | .pow => bytes "^"
  | .concat => bytes ".."
  | .eq => bytes "=="
  | .lt => bytes "<"
  | .le => bytes "<="
  | .ne => bytes "~="
  | .gt => bytes ">"
  | .ge => bytes ">="
  | .and => bytes "and"
  | .or => bytes "or"

def left : BinaryOp → Nat
  | .or => 1
  | .and => 2
  | .eq | .lt | .le | .ne | .gt | .ge => 3
  | .concat => 5
  | .add | .sub => 6
  | .mul | .div | .mod => 7
  | .pow => 10

/-- The priority towards the operand on the right. Concatenation and exponentiation group to the
right. -/
def right : BinaryOp → Nat
  | .concat => 4
  | .pow => 9
  | op => op.left

def family : BinaryOp → Family
  | .add => .arith .add
  | .sub => .arith .sub
  | .mul => .arith .mul
  | .div => .arith .div
  | .mod => .arith .mod
  | .pow => .arith .pow
  | .concat => .concat
  | .eq => .compare .eq true
  | .lt => .compare .lt true
  | .le => .compare .le true
  | .ne => .compare .eq false
  | .gt => .compare .lt false
  | .ge => .compare .le false
  | .and => .conjunction
  | .or => .disjunction

end BinaryOp

end RegisterCompiler
