import RegisterCompiler.Generator.Emit

/-!
# Jump lists

The jumps of a list form a chain: the offset of each leads to the next, and the last one has the
offset `noJump`.

A test and the jump after it belong together. A test that stores the tested value is turned into a
plain test where nobody wants the value.
-/

namespace RegisterCompiler

namespace Gen

def nextJump (pc : Int) : Gen JumpList := do
  let offset := (← instrAt pc).sbx
  return if offset = noJump then .empty else .ofHead (pc + 1 + offset)

def chainBound : Gen Nat :=
  return (← getFn).code.size + 1

def setTarget (pc target : Int) : Gen Unit := do
  require (target ≥ 0) .targetNotNegative
  let offset := target - (pc + 1)
  if offset > maxSBx || offset < -maxSBx then error .controlTooLong
  updateInstr pc (·.setSBx offset)

def lastJumpIn (code : Array Instr) : (fuel : Nat) → (pc : Int) → Except Invariant Int
  | 0, _ => .error .chainEnds
  | k + 1, pc =>
    if pc < 0 then .error .inRange
    else if h : pc.toNat < code.size then
      let offset := code[pc.toNat].sbx
      if offset = noJump then .ok pc else lastJumpIn code k (pc + 1 + offset)
    else .error .inRange

def lastJump (pc : Int) : Gen Int := do
  let code := (← getFn).code
  match lastJumpIn code (code.size + 1) pc with
  | .ok pc => return pc
  | .error i => broken i

def concat (l₁ l₂ : JumpList) : Gen JumpList := do
  match l₁.head, l₂.head with
  | _, none => return l₁
  | none, _ => return l₂
  | some h₁, some h₂ =>
    setTarget (← lastJump h₁) h₂
    return l₁

def jump : Gen JumpList :=
  return .ofHead (← emitAsBx .jmp 0 noJump)

def testJump (op : Opcode) (a b c : Int) : Gen JumpList := do
  let _ ← emitABC op a b c
  jump

/-- The place of the instruction that decides about the jump at `pc`: the test before it, or else
the jump itself. -/
def decidingPlace (pc : Int) : Gen Int := do
  if pc ≥ 1 then
    match (← instrAt (pc - 1)).op? with
    | some op => return if op.isTest then pc - 1 else pc
    | none => return pc
  else return pc

def wantsValueFrom : (fuel : Nat) → JumpList → Gen Bool
  | 0, _ => broken .chainEnds
  | k + 1, l => do
    match l.head with
    | none => return false
    | some pc =>
      if (← instrAt (← decidingPlace pc)).op? != some .testSet then return true
      else wantsValueFrom k (← nextJump pc)

def wantsValue (l : JumpList) : Gen Bool := do
  wantsValueFrom (← chainBound) l

/-- Makes the test of the jump at `pc` store its value in `reg`, or store nothing if `reg` is
`noRegister` or has the value already. The result is false if the test stores nothing anyway. -/
def patchTest (pc reg : Int) : Gen Bool := do
  let at_ ← decidingPlace pc
  let i ← instrAt at_
  if i.op? != some .testSet then return false
  if reg != noRegister && reg != i.b then updateInstr at_ (·.setA reg)
  else updateInstr at_ fun i => .abc Opcode.test.code i.b 0 i.c
  return true

def dropValuesFrom : (fuel : Nat) → JumpList → Gen Unit
  | 0, _ => broken .chainEnds
  | k + 1, l => do
    match l.head with
    | none => return
    | some pc =>
      let _ ← patchTest pc noRegister
      dropValuesFrom k (← nextJump pc)

def dropValues (l : JumpList) : Gen Unit := do
  dropValuesFrom (← chainBound) l

/-- Points the jumps of a chain that store a value in `reg` to `withValue`, the others to
`without`. -/
def patchFrom (withValue reg without : Int) : (fuel : Nat) → JumpList → Gen Unit
  | 0, _ => broken .chainEnds
  | k + 1, l => do
    match l.head with
    | none => return
    | some pc =>
      let rest ← nextJump pc
      if ← patchTest pc reg then setTarget pc withValue else setTarget pc without
      patchFrom withValue reg without k rest

/-- Points the jumps of a list that store a value in `reg` to `withValue`, the others to
`without`. -/
def patchValues (l : JumpList) (withValue reg without : Int) : Gen Unit := do
  patchFrom withValue reg without (← chainBound) l

def resolvePending : Gen Unit := do
  let l := (← getFn).pending
  if l != .empty then
    let here ← pc
    modifyFn fun f => { f with pending := .empty }
    patchValues l here noRegister here

def aimHere (l : JumpList) : Gen Unit := do
  let _ ← label
  let all ← concat (← getFn).pending l
  modifyFn fun f => { f with pending := all }
  resolvePending

def aimAt (l : JumpList) (target : Int) : Gen Unit := do
  let here ← pc
  if target = here then aimHere l
  else
    require (target < here) .targetNotFuture
    patchValues l target noRegister target

def jumpBackTo (target : Int) : Gen Unit := do
  aimAt (← jump) target

/-- Makes all jumps of a chain close the upvalues of registers from `level - 1` on. -/
def patchCloseFrom (level : Int) : (fuel : Nat) → JumpList → Gen Unit
  | 0, _ => broken .chainEnds
  | k + 1, l => do
    match l.head with
    | none => return
    | some pc =>
      let rest ← nextJump pc
      let i ← instrAt pc
      require (i.op? == some .jmp && (i.a == 0 || (i.a : Int) ≥ level)) .closesJump
      updateInstr pc (·.setA level)
      patchCloseFrom level k rest

def closeOnJump (l : JumpList) (level : Int) : Gen Unit := do
  patchCloseFrom (level + 1) (← chainBound) l

def listHead (l : JumpList) : Gen Int :=
  match l.head with
  | some pc => pure pc
  | none => broken .listNotEmpty

end Gen

/-! ## Jumps to jumps -/

def maxHops : Nat := 100

/-- Follows jumps that close nothing from `target` on, at most `hops` of them and never through the
jump at `pc` itself. -/
def followJumps (code : Array Instr) (pc : Nat) : (hops : Nat) → (target : Int) → Int
  | 0, target => target
  | k + 1, target =>
    if target < 0 ∨ target = pc then target
    else
      match code[target.toNat]? with
      | none => target
      | some i =>
        if i.op? = some .jmp ∧ i.a = 0 then followJumps code pc k (target + 1 + i.sbx) else target

/-- Points the jump at `pc`, if one is there, to where the jumps that it leads to end. -/
def threadJump (code : Array Instr) (pc : Nat) : Array Instr :=
  match code[pc]? with
  | none => code
  | some i =>
    if i.op? = some .jmp then
      let offset := followJumps code pc maxHops (pc + 1 + i.sbx) - (pc + 1)
      if offset ≠ i.sbx ∧ -maxSBx ≤ offset ∧ offset ≤ maxSBx then
        code.modify pc (·.setSBx offset)
      else code
    else code

def threadFrom : (n : Nat) → (pc : Nat) → Array Instr → Array Instr
  | 0, _, code => code
  | n + 1, pc, code => threadFrom n (pc + 1) (threadJump code pc)

/-- Every jump to a jump that closes nothing goes to the final target at once. -/
def threadJumps (code : Array Instr) : Array Instr :=
  threadFrom code.size 0 code

end RegisterCompiler
