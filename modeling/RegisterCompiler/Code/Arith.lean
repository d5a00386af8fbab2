import RegisterCompiler.Number
import RegisterCompiler.Code.Opcode

/-!
# Arithmetic of the machine

`arith` is the one definition of what the arithmetic operations compute. Constants are folded with
it, so a folded result has the bits that the machine would have computed.
-/

namespace RegisterCompiler

/-- The operation whose arithmetic was asked for has none. -/
structure NotArith where
  code : Nat

def NotArith.message (e : NotArith) : Bytes :=
  bytes "vm: Arith on non-arithmetic opcode " ++ (OpInfo.ofCode e.code).name

def Number.neg (x : Number) : Number :=
  ⟨x.bits ^^^ 0x8000000000000000⟩

def Number.lift₂ (f : Float → Float → Float) (x y : Number) : Number :=
  .ofFloat (f x.toFloat y.toFloat)

/-- The function that an arithmetic operation computes. Negation looks at its first operand only;
the remainder takes the sign of the divisor. -/
def Opcode.arith? : Opcode → Option (Number → Number → Number)
  | .add => some (.lift₂ fun x y => x + y)
  | .sub => some (.lift₂ fun x y => x - y)
  | .mul => some (.lift₂ fun x y => x * y)
  | .div => some (.lift₂ fun x y => x / y)
  | .mod => some (.lift₂ fun x y => x - (x / y).floor * y)
  | .pow => some (.lift₂ fun x y => x.pow y)
  | .unm => some fun x _ => x.neg
  | _ => none

def Opcode.isArith (op : Opcode) : Bool :=
  op.arith?.isSome

def arith (code : Nat) (x y : Number) : Except NotArith Number :=
  match (Opcode.ofCode? code).bind Opcode.arith? with
  | some f => .ok (f x y)
  | none => .error ⟨code⟩

end RegisterCompiler
