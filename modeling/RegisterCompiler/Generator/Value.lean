import RegisterCompiler.Generator.Scope

/-!
# Putting values where they are wanted

A value goes into a given register, the next free one or any one, or into an operand that names a
register or a constant; or it decides where to go on.
-/

namespace RegisterCompiler.Gen

/-! ## Results of calls -/

def giveResults (e : Operand) (n : Int) : Gen Unit := do
  match e.kind with
  | .call => updateInstr e.info (·.setC (n + 1))
  | .vararg =>
    let free ← firstFree
    updateInstr e.info fun i => (i.setB (n + 1)).setA free
    reserve 1
  | _ => return

def giveAll (e : Operand) : Gen Unit :=
  giveResults e multRet

def giveOne (e : Operand) : Gen Operand := do
  match e.kind with
  | .call => return { e with kind := .nonRelocatable, info := (← instrAt e.info).a }
  | .vararg =>
    updateInstr e.info (·.setB 2)
    return { e with kind := .relocatable }
  | _ => return e

/-! ## Values in registers -/

/-- The value of a variable: a local variable is in its register already, all others are fetched. -/
def discharge (e : Operand) : Gen Operand := do
  match e.kind with
  | .local => return { e with kind := .nonRelocatable }
  | .upvalue =>
    return { e with info := ← emitABC .getUpval 0 e.info 0, kind := .relocatable }
  | .indexed inUpvalue key =>
    releaseRegister key
    if !inUpvalue then releaseRegister e.info
    let op := if inUpvalue then .getTabUp else .getTable
    return { e with info := ← emitABC op 0 e.info key, kind := .relocatable }
  | .call | .vararg => giveOne e
  | _ => return e

def dischargeTo (e : Operand) (reg : Int) : Gen Operand := do
  let e ← discharge e
  let placed : Operand := { e with info := reg, kind := .nonRelocatable }
  match e.kind with
  | .nil =>
    emitNils reg 1
    return placed
  | .false =>
    let _ ← emitABC .loadBool reg 0 0
    return placed
  | .true =>
    let _ ← emitABC .loadBool reg 1 0
    return placed
  | .constant =>
    let _ ← emitConstant reg e.info
    return placed
  | .number x =>
    let _ ← emitConstant reg (← internConstant (.number x))
    return placed
  | .relocatable =>
    updateInstr e.info (·.setA reg)
    return placed
  | .nonRelocatable =>
    if reg ≠ e.info then
      let _ ← emitABC .move reg e.info 0
    return placed
  | .void | .jump => return e
  | k => broken (.dischargeable k)

/-- Puts the value of `e`, its jumps apart, into the next register unless it is in one. -/
def dischargeToAny (e : Operand) : Gen Operand := do
  match e.kind with
  | .nonRelocatable => return e
  | _ =>
    reserve 1
    dischargeTo e ((← getFn).free - 1)

/-- Loads a boolean, as the target of a jump, and skips the next instruction if `skip` is 1. -/
def loadBool (reg b skip : Int) : Gen Int := do
  let _ ← label
  emitABC .loadBool reg b skip

def joinComparison (e : Operand) : Gen Operand := do
  if e.kind = .jump then
    return { e with whenTrue := ← concat e.whenTrue (.ofHead e.info) }
  else return e

def wantsLoads (e : Operand) : Gen Bool := do
  if ← wantsValue e.whenTrue then return true else wantsValue e.whenFalse

/-- Instructions that load `false` and `true` into a register, with their places. The value of `e`, if
it is in the register already, gets past them. -/
def loadBools (e : Operand) (reg : Int) : Gen (Int × Int) := do
  let past ← if e.kind = .jump then pure .empty else jump
  let loadFalse ← loadBool reg 0 1
  let loadTrue ← loadBool reg 1 0
  aimHere past
  return (loadFalse, loadTrue)

/-- Points the jumps that leave `e` to what comes next. Those that store the value in `reg` arrive
there; those that do not arrive at instructions that load `false` or `true`. -/
def settleJumps (e : Operand) (reg : Int) : Gen Unit := do
  let (loadFalse, loadTrue) ← if ← wantsLoads e then loadBools e reg else pure (-1, -1)
  let done ← label
  patchValues e.whenFalse done reg loadFalse
  patchValues e.whenTrue done reg loadTrue

def toRegister (e : Operand) (reg : Int) : Gen Operand := do
  let e ← joinComparison (← dischargeTo e reg)
  if e.carriesJumps then settleJumps e reg
  return .plain .nonRelocatable reg

def toNextRegister (e : Operand) : Gen Operand := do
  let e ← discharge e
  releaseOperand e
  reserve 1
  toRegister e ((← getFn).free - 1)

def toAnyRegister (e : Operand) : Gen Operand := do
  let e ← discharge e
  match e.kind with
  | .nonRelocatable =>
    if !e.carriesJumps then return e
    else if e.info ≥ (← getFn).active then toRegister e e.info
    else toNextRegister e
  | _ => toNextRegister e

/-- Puts the value of `e` into a register, unless it is in one or is an upvalue. -/
def toAnyRegisterOrUpvalue (e : Operand) : Gen Operand :=
  if e.kind = .upvalue ∧ !e.carriesJumps then pure e else toAnyRegister e

def toValue (e : Operand) : Gen Operand :=
  if e.carriesJumps then toAnyRegister e else discharge e

def registerRK (e : Operand) : Gen (Operand × Int) := do
  let e ← toAnyRegister e
  return (e, e.info)

/-- The value of `e` as an operand that names a constant, if `e` is one and its index fits, or else a
register. -/
def toRK (e : Operand) : Gen (Operand × Int) := do
  let e ← toValue e
  let named (v : Constant) : Gen (Operand × Int) := do
    if (← getFn).constants.size ≤ maxIndexRK then
      let k ← internConstant v
      return ({ e with info := k, kind := .constant }, asConstantRK k)
    else registerRK e
  let fitting (e : Operand) : Gen (Operand × Int) :=
    if e.info ≤ maxIndexRK then pure (e, asConstantRK e.info) else registerRK e
  match e.kind with
  | .true => named (.boolean true)
  | .false => named (.boolean false)
  | .nil => named .nil
  | .number x => fitting { e with info := ← internConstant (.number x), kind := .constant }
  | .constant => fitting e
  | _ => registerRK e

/-! ## Variables -/

def store (v e : Operand) : Gen Unit := do
  match v.kind with
  | .local =>
    releaseOperand e
    let _ ← toRegister e v.info
  | .upvalue =>
    let e ← toAnyRegister e
    let _ ← emitABC .setUpval e.info v.info 0
    releaseOperand e
  | .indexed inUpvalue key =>
    let (e, rk) ← toRK e
    let _ ← emitABC (if inUpvalue then .setTabUp else .setTable) v.info key rk
    releaseOperand e
  | k => broken (.storeTarget k)

/-- Puts the method `e[key]` and then `e` itself into two new registers. -/
def method (e key : Operand) : Gen Operand := do
  let e ← toAnyRegister e
  releaseOperand e
  let base ← firstFree
  reserve 2
  let (key, rk) ← toRK key
  let _ ← emitABC .self base e.info rk
  releaseOperand key
  return { e with info := base, kind := .nonRelocatable }

def indexed (t k : Operand) : Gen Operand := do
  require (!t.carriesJumps) .indexWithoutJumps
  let (_, key) ← toRK k
  match t.kind with
  | .upvalue => return { t with kind := .indexed true key }
  | .local | .nonRelocatable => return { t with kind := .indexed false key }
  | k => broken (.indexable k)

def localOrUpvalue (name : Bytes) : Gen (Option Operand) := do
  require ((← getFn).active ≤ (← getFn).declared.size) .inRange
  match (← getFn).findLocal? name with
  | some reg => return some (.plain .local reg)
  | none =>
    match ← makeUpvalue name with
    | some i => return some (.plain .upvalue i)
    | none => return none

/-- What a name stands for: the innermost local variable of that name, here or in a function around,
or else a field of the environment. -/
def namedVariable (name : Bytes) : Gen Operand := do
  match ← localOrUpvalue name with
  | some e => return e
  | none =>
    require (name != envName) .environment
    match ← localOrUpvalue envName with
    | some env => indexed env (← stringOperand name)
    | none => broken .environment

/-! ## Conditions -/

def flipTest (e : Operand) : Gen Unit := do
  let at_ ← decidingPlace e.info
  let i ← instrAt at_
  require (i.op?.any fun op => op.isTest && op != .testSet && op != .test) (.invertible i.opcode)
  updateInstr at_ fun i => i.setA (1 - i.a)

/-- Adds a jump that is taken if `e` is true or false, as `cond` says. A negation before it is taken
away and its operand tested for the opposite. -/
def jumpOn (e : Operand) (cond : Bool) : Gen (Operand × JumpList) := do
  let byTest : Gen (Operand × JumpList) := do
    let e ← dischargeToAny e
    releaseOperand e
    return (e, ← testJump .testSet noRegister e.info (if cond then 1 else 0))
  match e.kind with
  | .relocatable =>
    let i ← instrAt e.info
    if i.op? = some .not then
      dropLastInstr
      return (e, ← testJump .test i.b 0 (if cond then 0 else 1))
    else byTest
  | _ => byTest

/-- Goes on if `e` is true, and jumps away, with the jumps `whenFalse`, if it is false. -/
def continueIfTrue (e : Operand) : Gen Operand := do
  let e ← discharge e
  let (e, away) ←
    match e.kind with
    | .jump =>
      flipTest e
      pure (e, .ofHead e.info)
    | .constant | .number _ | .true => pure (e, .empty)
    | _ => jumpOn e false
  let whenFalse ← concat e.whenFalse away
  aimHere e.whenTrue
  return { e with whenFalse := whenFalse, whenTrue := .empty }

/-- Goes on if `e` is false, and jumps away, with the jumps `whenTrue`, if it is true. -/
def continueIfFalse (e : Operand) : Gen Operand := do
  let e ← discharge e
  let (e, away) ←
    match e.kind with
    | .jump => pure (e, .ofHead e.info)
    | .nil | .false => pure (e, .empty)
    | _ => jumpOn e true
  let whenTrue ← concat e.whenTrue away
  aimHere e.whenFalse
  return { e with whenTrue := whenTrue, whenFalse := .empty }

end RegisterCompiler.Gen
