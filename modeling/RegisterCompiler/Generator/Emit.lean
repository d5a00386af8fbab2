import RegisterCompiler.Generator.State

/-!
# Instructions, registers and constants

Registers are a stack, whose height is the function's need. Local variables are registers.
-/

namespace RegisterCompiler.Gen

def maxRegisters : Int := 250
def maxLocals : Int := 200
def maxUpvalues : Int := 255
def maxConstants : Int := maxAx
def noRegister : Int := maxA
def noJump : Int := -1

/-! ## Instructions -/

def pc : Gen Int :=
  return (← getFn).code.size

def emit (i : Instr) : Gen Int := do
  require (!(← getFn).isClosed) .emitOpen
  let n := (← getFn).code.size
  modify fun s =>
    { s with fn := { s.fn with code := s.fn.code.push i, lines := s.fn.lines.push s.line } }
  return n

def emitABC (op : Opcode) (a b c : Int) : Gen Int := do
  let info := op.info
  require (info.mode == .abc) (.layoutABC op)
  require (info.b != .unused || b == 0) (.noOperandB op)
  require (info.c != .unused || c == 0) (.noOperandC op)
  require (a ≤ maxA && b ≤ maxB && c ≤ maxC) (.operandRange op)
  emit (.abc op.code a b c)

def emitABx (op : Opcode) (a bx : Int) : Gen Int := do
  let mode := op.info.mode
  require (mode == .abx || mode == .asbx) (.layoutABx op)
  require (0 ≤ bx && bx ≤ maxBx) (.rangeBx op)
  emit (.abx op.code a bx)

def emitAsBx (op : Opcode) (a sbx : Int) : Gen Int :=
  emitABx op a (sbx + maxSBx)

def emitExtra (ax : Int) : Gen Int := do
  require (ax ≤ maxAx) .rangeAx
  emit (.ofAx Opcode.extraArg.code ax)

def emitConstant (reg k : Int) : Gen Int := do
  if k ≤ maxBx then emitABx .loadK reg k
  else
    let at_ ← emitABx .loadKX reg 0
    let _ ← emitExtra k
    return at_

def instrAt (pc : Int) : Gen Instr := do
  let code := (← getFn).code
  let n ← place pc code.size
  match code[n]? with
  | some i => return i
  | none => broken .inRange

def updateInstr (pc : Int) (h : Instr → Instr) : Gen Unit := do
  let n ← place pc (← getFn).code.size
  modifyFn fun f => { f with code := f.code.modify n h }

def moveLastToLine (line : Int) : Gen Unit := do
  let n ← place ((← getFn).lines.size - 1) (← getFn).lines.size
  modifyFn fun f => { f with lines := f.lines.modify n fun _ => line }

def dropLastInstr : Gen Unit := do
  let _ ← place ((← getFn).code.size - 1) (← getFn).code.size
  modifyFn fun f => { f with code := f.code.pop, lines := f.lines.pop }

def label : Gen Int := do
  let n ← pc
  modifyFn fun f => { f with lastTarget := n }
  return n

/-- Sets `n` registers from `first` on to nil. If the instruction before does that to registers that
overlap or adjoin these, and no jump comes between, it is made to do both. -/
def emitNils (first n : Int) : Gen Unit := do
  let at_ ← pc
  let last := first + n - 1
  if at_ > (← getFn).lastTarget && at_ > 0 then
    let before ← instrAt (at_ - 1)
    let pfirst : Int := before.a
    let plast : Int := pfirst + before.b
    if before.op? == some .loadNil &&
        ((pfirst ≤ first && first ≤ plast + 1) || (first ≤ pfirst && pfirst ≤ last + 1)) then
      let lo := min pfirst first
      let hi := max plast last
      updateInstr (at_ - 1) fun i => (i.setA lo).setB (hi - lo)
    else
      let _ ← emitABC .loadNil first (n - 1) 0
  else
    let _ ← emitABC .loadNil first (n - 1) 0

/-- Returns `n` values from register `first` on, or all from there if `n` is `multRet`. -/
def ret (first n : Int) : Gen Unit := do
  let _ ← emitABC .ret first (n + 1) 0

/-- Stores `n` list items, or all if `n` is `multRet`, from the registers above `base` into the table
in `base`; `count` is the number of items so far. The registers above `base` are free after it. -/
def storeItems (base count n : Int) : Gen Unit := do
  require (n != 0) .someToStore
  let batch := Int.tdiv (count - 1) fieldsPerFlush + 1
  let b := if n = multRet then 0 else n
  if batch ≤ maxC then
    let _ ← emitABC .setList base b batch
  else if batch ≤ maxAx then
    let _ ← emitABC .setList base b 0
    let _ ← emitExtra batch
  else error .constructorTooLong
  modifyFn fun f => { f with free := base + 1 }

/-! ## Registers -/

def ensureRegisters (n : Int) : Gen Unit := do
  let top := (← getFn).free + n
  if top > (← getFn).stack then
    if top ≥ maxRegisters then error .tooComplex
    modifyFn fun f => { f with stack := top }

def reserve (n : Int) : Gen Unit := do
  ensureRegisters n
  modifyFn fun f => { f with free := f.free + n }

/-- Frees the register that an operand names, which is the top one. Constants and local variables
are not freed. -/
def releaseRegister (reg : Int) : Gen Unit := do
  if !isConstantRK reg && reg ≥ (← getFn).active then
    modifyFn fun f => { f with free := f.free - 1 }
    require (reg == (← getFn).free) .freedTop

def releaseOperand (e : Operand) : Gen Unit :=
  match e.kind with
  | .nonRelocatable => releaseRegister e.info
  | _ => pure ()

/-! ## Constants -/

def internConstant (v : Constant) : Gen Int := do
  match (← getFn).constantPlaces[v.key]? with
  | some k => return k
  | none =>
    let k := (← getFn).constants.size
    limit (k + 1) maxConstants .constants
    modifyFn fun f =>
      { f with
        constantPlaces := f.constantPlaces.insert v.key k
        constants := f.constants.push v }
    return k

def stringOperand (s : Bytes) : Gen Operand :=
  return .plain .constant (← internConstant (.string s))

/-! ## Local variables -/

def newLocal (name : Bytes) : Gen Unit := do
  limit ((← getFn).declared.size + 1) maxLocals .locals
  let n := (← getFn).locals.size
  modifyFn fun f =>
    { f with declared := f.declared.push n, locals := f.locals.push ⟨name, 0, 0⟩ }

def localAt (reg : Int) : Gen LocalVar := do
  let f ← getFn
  let n ← place reg f.declared.size
  match f.declared[n]?.bind fun k => f.locals[k]? with
  | some v => return v
  | none => broken .inRange

def updateLocal (reg : Int) (h : LocalVar → LocalVar) : Gen Unit := do
  let n ← place reg (← getFn).declared.size
  modifyFn fun f =>
    match f.declared[n]? with
    | some k => { f with locals := f.locals.modify k h }
    | none => f

def startLocals (pc : Int) : (n : Nat) → (reg : Int) → Gen Unit
  | 0, _ => pure ()
  | n + 1, reg => do
    updateLocal reg fun v => { v with startPC := pc }
    startLocals pc n (reg + 1)

def activate (n : Int) : Gen Unit := do
  let first ← activeLocals
  modifyFn fun f => { f with active := first + n }
  startLocals (← pc) n.toNat first

def endLocals (pc : Int) : (n : Nat) → Gen Unit
  | 0 => pure ()
  | n + 1 => do
    modifyFn fun f => { f with active := f.active - 1 }
    updateLocal (← getFn).active fun v => { v with endPC := pc }
    endLocals pc n

/-- Ends the local variables from register `level` on; those that are declared and not active are
forgotten. -/
def deactivate (level : Int) : Gen Unit := do
  endLocals (← pc) ((← getFn).active - level).toNat
  modifyFn fun f => { f with declared := f.declared.take level.toNat }

end Gen

def Func.nameOfLocal? (f : Func) (reg : Nat) : Option Bytes :=
  (f.declared[reg]?.bind fun k => f.locals[k]?).map (·.name)

/-- The last of the first `n` registers that holds a local variable called `name`. -/
def Func.findLocalBelow (f : Func) (name : Bytes) : (n : Nat) → Option Nat
  | 0 => none
  | n + 1 => if f.nameOfLocal? n = some name then some n else f.findLocalBelow name n

def Func.findLocal? (f : Func) (name : Bytes) : Option Nat :=
  f.findLocalBelow name f.active.toNat

end RegisterCompiler
