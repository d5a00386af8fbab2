import RegisterCompiler.Code.Proto
import RegisterCompiler.Proofs.InstrFields

/-!
# Well-formed code

What a machine may rely on in the code of a function, said without the generator:

* `ControlFlow code` : the code ends in a return, every jump stays inside it, a test is followed by
  its jump, a large operand stands only behind an instruction that takes one, no jump leads between
  the two, and the two ends of a counting loop lead to each other;
* `OperandsInRange p` : all of that exists in the function `p`;
* `Confined`, `ClosesCaptured p` : control leaves the range of a captured variable only by jumps that
  close it;
* `Proto.WellFormed`, `Proto.Sound` : all this together, for a function and for those inside it.
-/

namespace RegisterCompiler

namespace Instr

/-- The instruction goes on at another place by its operand `sBx`. -/
def isJump (i : Instr) : Bool :=
  i.op? == some .jmp || i.op? == some .forPrep || i.op? == some .forLoop || i.op? == some .tForLoop

def target (pc : Nat) (i : Instr) : Int :=
  pc + 1 + i.sbx

def isTest (i : Instr) : Bool :=
  i.op?.any Opcode.isTest

/-- The instruction after this one holds a large operand of it. -/
def takesExtra (i : Instr) : Bool :=
  i.op? == some .loadKX || (i.op? == some .setList && i.c == 0)

/-- The instruction is a jump that closes the variable in register `r` on its way. -/
def Closes (i : Instr) (r : Nat) : Prop :=
  i.op? = some .jmp ∧ i.a ≠ 0 ∧ i.a ≤ r + 1

/-- From the instruction at `pc` control can go on at `t`. -/
def GoesTo (i : Instr) (pc : Nat) (t : Int) : Prop :=
  match i.op? with
  | some .ret => False
  | some .jmp | some .forPrep => t = i.target pc
  | some .forLoop | some .tForLoop => t = i.target pc ∨ t = pc + 1
  | some .eq | some .lt | some .le | some .test | some .testSet => t = pc + 1 ∨ t = pc + 2
  | some .loadBool => if i.c = 0 then t = pc + 1 else t = pc + 2
  | _ => t = pc + 1

/-! ## What an instruction uses -/

/-- The register that an operand names, if it does not name a constant. -/
def rkRegisters (x : Nat) : List Nat :=
  if isConstantRK x then [] else [x]

/-- The constant that an operand names, if it does not name a register. -/
def rkConstants (x : Nat) : List Nat :=
  if isConstantRK x then [(constantOfRK x).toNat] else []

/-- The registers that the instruction reads or writes. Where it uses all registers up to an open
end, the first of them stands for them. -/
def registers (i : Instr) : List Nat :=
  match i.op? with
  | none => []
  | some op =>
    match op with
    | .move | .unm | .not | .len | .testSet => [i.a, i.b]
    | .loadK | .loadKX | .loadBool | .getUpval | .setUpval | .newTable | .closure | .test => [i.a]
    | .loadNil => List.range' i.a (i.b + 1)
    | .getTabUp => i.a :: rkRegisters i.c
    | .getTable => i.a :: i.b :: rkRegisters i.c
    | .setTabUp | .eq | .lt | .le => rkRegisters i.b ++ rkRegisters i.c
    | .setTable | .add | .sub | .mul | .div | .mod | .pow =>
      i.a :: (rkRegisters i.b ++ rkRegisters i.c)
    | .self => i.a :: (i.a + 1) :: i.b :: rkRegisters i.c
    | .concat => i.a :: List.range' i.b (i.c + 1 - i.b)
    | .jmp | .extraArg => []
    | .call => i.a :: (List.range' i.a i.b ++ List.range' i.a (i.c - 1))
    | .tailCall => i.a :: List.range' i.a i.b
    | .ret | .vararg => if i.b = 0 then [i.a] else List.range' i.a (i.b - 1)
    | .forPrep | .forLoop => List.range' i.a 4
    | .tForCall => List.range' i.a (3 + i.c) ++ List.range' (i.a + 3) 3
    | .tForLoop => [i.a, i.a + 1]
    | .setList => i.a :: List.range' (i.a + 1) i.b

/-- The constants that the instruction reads by its own operands. -/
def constants (i : Instr) : List Nat :=
  match i.op? with
  | none => []
  | some op =>
    match op with
    | .loadK => [i.bx]
    | .getTabUp | .getTable | .self => rkConstants i.c
    | .setTabUp | .setTable | .add | .sub | .mul | .div | .mod | .pow | .eq | .lt | .le =>
      rkConstants i.b ++ rkConstants i.c
    | _ => []

/-- The upvalues that the instruction reads or writes. -/
def upvalues (i : Instr) : List Nat :=
  match i.op? with
  | some .getUpval | some .setUpval | some .getTabUp => [i.b]
  | some .setTabUp => [i.a]
  | _ => []

end Instr

/-! ## Code -/

/-- The control flow of the code is well formed. -/
structure ControlFlow (code : Array Instr) : Prop where
  ends : ∃ i, code.back? = some i ∧ i.op? = some .ret
  jumps : ∀ {pc : Nat} {i : Instr}, code[pc]? = some i → i.isJump → 0 ≤ i.target pc ∧ i.target pc < code.size
  tests : ∀ {pc : Nat} {i : Instr}, code[pc]? = some i → i.isTest → ∃ j, code[pc + 1]? = some j ∧ j.op? = some .jmp
  /-- An instruction that takes a large operand is followed by it. -/
  extras : ∀ {pc : Nat} {i : Instr}, code[pc]? = some i → i.takesExtra →
    ∃ j, code[pc + 1]? = some j ∧ j.op? = some .extraArg
  onlyExtras : ∀ {pc : Nat} {j : Instr}, code[pc]? = some j → j.op? = some .extraArg →
    ∃ q i, pc = q + 1 ∧ code[q]? = some i ∧ i.takesExtra
  /-- No jump leads to the jump of a test or to a large operand. -/
  together : ∀ {pc : Nat} {i : Instr}, code[pc]? = some i → i.isTest ∨ i.takesExtra →
    ∀ {q : Nat} {j : Instr}, code[q]? = some j → j.isJump → j.target q ≠ pc + 1
  /-- An instruction that skips the next one does not skip the last one. -/
  skips : ∀ {pc : Nat} {i : Instr}, code[pc]? = some i → i.op? = some .loadBool → i.c ≠ 0 → pc + 2 < code.size
  /-- The call of an iterator is followed by its loop instruction. -/
  calls : ∀ {pc : Nat} {i : Instr}, code[pc]? = some i → i.op? = some .tForCall →
    ∃ j, code[pc + 1]? = some j ∧ j.op? = some .tForLoop
  /-- The start of a counting loop leads to its end, which leads to the instruction after the
  start. -/
  loops : ∀ {pc : Nat} {i : Instr}, code[pc]? = some i → i.op? = some .forPrep →
    ∃ q j, i.target pc = (q : Nat) ∧ code[q]? = some j ∧ j.op? = some .forLoop ∧ j.a = i.a ∧
      j.target q = pc + 1

/-- All that the instructions of a function use exists in the function. -/
structure OperandsInRange (p : Proto) : Prop where
  stack : 2 ≤ p.stack ∧ p.stack ≤ 249
  params : p.params ≤ p.stack
  registers : ∀ {pc : Nat} {i : Instr}, p.codeArray[pc]? = some i → ∀ r ∈ i.registers, (r : Int) < p.stack
  /-- Upvalues are closed from a register on that exists. -/
  closes : ∀ {pc : Nat} {i : Instr}, p.codeArray[pc]? = some i → i.op? = some .jmp → i.a ≠ 0 →
    (i.a : Int) - 1 < p.stack
  constants : ∀ {pc : Nat} {i : Instr}, p.codeArray[pc]? = some i → ∀ k ∈ i.constants, k < p.constantArray.size
  extraConstants : ∀ {pc : Nat} {i j : Instr}, p.codeArray[pc]? = some i → i.op? = some .loadKX →
    p.codeArray[pc + 1]? = some j → j.ax < p.constantArray.size
  upvalues : ∀ {pc : Nat} {i : Instr}, p.codeArray[pc]? = some i → ∀ u ∈ i.upvalues, u < p.upvalueList.length
  upvalueCount : p.upvalueList.length ≤ 255
  protos : ∀ {pc : Nat} {i : Instr}, p.codeArray[pc]? = some i → i.op? = some .closure → i.bx < p.children.length

/-! ## Captured variables -/

namespace Proto

/-- The register of the `k`-th local variable, `v`: as many variables before it in the list are live
where it starts. -/
def registerOfLocal (p : Proto) (k : Nat) (v : LocalVar) : Nat :=
  (p.locals.take k).countP fun u => u.startPC ≤ v.startPC && v.startPC < u.endPC

/-- The instruction at `q` makes a closure over the variable in register `r`. -/
def MakesClosureOver (p : Proto) (q r : Nat) : Prop :=
  ∃ i child u, p.codeArray[q]? = some i ∧ i.op? = some .closure ∧
    p.children[i.bx]? = some (some child) ∧ u ∈ child.upvalueList ∧ u.isLocal ∧ u.index = r

end Proto

/-- Control leaves the range from `start` to `stop` only by jumps that close register `r`. -/
def Confined (code : Array Instr) (start stop : Int) (r : Nat) : Prop :=
  ∀ (pc : Nat) (i : Instr) (t : Int), code[pc]? = some i → i.GoesTo pc t → start ≤ pc → pc < stop →
    ¬ (start ≤ t ∧ t < stop) → i.Closes r

/-- If a closure is made over a variable while it is live, or by the instruction right before, then
control leaves its range only by jumps that close it. -/
def ClosesCaptured (p : Proto) : Prop :=
  ∀ (k : Nat) (v : LocalVar), p.locals[k]? = some v →
    (∃ q : Nat, v.startPC ≤ q + 1 ∧ q < v.endPC ∧ p.MakesClosureOver q (p.registerOfLocal k v)) →
    Confined p.codeArray v.startPC v.endPC (p.registerOfLocal k v)

/-! ## Debug information -/

/-- There is a line for each instruction. The records of the variables are in the order of their
starts, and the range of each lies after or inside those of the records before it. -/
structure Proto.Recorded (p : Proto) : Prop where
  lines : p.lines.size = p.codeArray.size
  ranges : ∀ v ∈ p.locals, v.startPC ≤ v.endPC ∧ v.endPC ≤ p.codeArray.size
  order : p.locals.Pairwise fun u v =>
    u.startPC ≤ v.startPC ∧ (u.endPC ≤ v.startPC ∨ v.endPC ≤ u.endPC)

/-! ## Functions -/

/-- The function, without those inside it, is well formed. -/
structure Proto.WellFormed (p : Proto) : Prop where
  control : ControlFlow p.codeArray
  operands : OperandsInRange p
  captured : ClosesCaptured p
  names : (p.upvalueList.map Upvalue.name).Nodup
  debug : p.Recorded

/-- The function and all functions inside it are well formed. -/
def Proto.Sound (p : Proto) : Prop :=
  ∀ q ∈ p.walk, q.WellFormed

end RegisterCompiler
