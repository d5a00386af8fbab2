import RegisterCompiler.Code.SizeByte
import RegisterCompiler.Generator.Function
import RegisterCompiler.Source.Read

/-!
# Code for source trees

All functions follow a tree in the order in which it was read. What a name in the tree stands for is
left to `named`; the compiler takes `namedVariable` for it.
-/

namespace RegisterCompiler.Gen

def mark : Mark → Gen Unit
  | .line n => onLine n
  | .stop f => do throw (.error ⟨(← get).source, f.line, f.cause, f.near⟩)

def stopAt {α : Type} (f : SyntaxFault) : Gen α := do
  throw (.error ⟨(← get).source, f.line, f.cause, f.near⟩)

/-! ## Lists of values -/

def adjustTo (wanted count : Int) (last : Operand) : Gen Unit := do
  let extra := wanted - count
  if last.isOpen then
    let extra := max (extra + 1) 0
    giveResults last extra
    if extra > 1 then reserve (extra - 1)
  else
    if last.kind ≠ .void then
      let _ ← toNextRegister last
    if extra > 0 then
      let reg ← firstFree
      reserve extra
      emitNils reg extra

/-- A call of the function in the register of `callee`; its arguments are in the registers above, the
last one of them still to be put there. -/
def call (callee last : Operand) (line : Int) : Gen Operand := do
  require (callee.kind == .nonRelocatable) .calleeInRegister
  let base := callee.info
  let count ←
    if last.isOpen then pure multRet
    else
      if last.kind ≠ .void then
        let _ ← toNextRegister last
      pure ((← getFn).free - (base + 1))
  let at_ ← emitABC .call base (count + 1) 2
  moveLastToLine line
  modifyFn fun f => { f with free := base + 1 }
  return .plain .call at_

/-! ## Table constructors -/

structure Constructor where
  reg : Int
  last : Operand := .void
  keyed : Nat := 0
  items : Int := 0
  waiting : Int := 0

/-- Puts the last list item into a register, and stores the items if there are enough. -/
def closeItem (c : Constructor) : Gen Constructor := do
  if c.last.kind = .void then return c
  else
    let _ ← toNextRegister c.last
    if c.waiting = fieldsPerFlush then
      storeItems c.reg c.items c.waiting
      return { c with last := .void, waiting := 0 }
    else return { c with last := .void }

/-- Stores the remaining list items. If the last one is a call, all its results are stored, and it is
not counted. -/
def closeItems (c : Constructor) : Gen Constructor := do
  if c.waiting = 0 then return c
  else if c.last.isOpen then
    giveAll c.last
    storeItems c.reg c.items multRet
    return { c with items := c.items - 1 }
  else
    if c.last.kind ≠ .void then
      let _ ← toNextRegister c.last
    storeItems c.reg c.items c.waiting
    return c

/-- Adds the field with key `rk` in a constructor; registers from `reg` on are free after it. -/
def storeField (c : Constructor) (reg rk : Int) (value : Operand) : Gen Constructor := do
  let (_, rkValue) ← toRK value
  let _ ← emitABC .setTable c.reg rk rkValue
  modifyFn fun f => { f with free := reg }
  return { c with keyed := c.keyed + 1 }

/-! ## Names and jumps -/

def newLocals : Names → Gen Unit
  | [] => pure ()
  | (m, name) :: rest => do
    mark m
    newLocal name
    newLocals rest

def fieldOf (e : Operand) (m : Mark) (name : Bytes) : Gen Operand := do
  let e ← toAnyRegisterOrUpvalue e
  mark m
  indexed e (← stringOperand name)

def path : Operand → Names → Gen Operand
  | e, [] => pure e
  | e, (m, name) :: rest => do path (← fieldOf e m name) rest

/-- A jump to a label or out of a loop, for which the jumps `l` are there already. -/
def goto (g : Goto) (l : JumpList) : Gen Unit := do
  mark g.mark
  addGoto (g.label.getD breakName) g.line l

def condition (e : Operand) : Gen JumpList := do
  let e := if e.kind = .nil then { e with kind := .false } else e
  return (← continueIfTrue e).whenFalse

/-! ## Assignments -/

/-- A target of an assignment that reaches its table or key through the variable `v` is made to use
the register `copy` instead. The flag tells whether it does. -/
def avoid (v : Operand) (copy : Int) (t : Operand) : Operand × Bool :=
  match t.kind with
  | .indexed inUpvalue key =>
    let byTable := v.kind = (if inUpvalue then .upvalue else .local) ∧ t.info = v.info
    let byKey := v.kind = .local ∧ key = v.info
    let key := if byKey then copy else key
    let t :=
      if byTable then { t with kind := .indexed false key, info := copy }
      else { t with kind := .indexed inUpvalue key }
    (t, byTable ∨ byKey)
  | _ => (t, false)

/-- Saves the variable `v` in a new register if earlier targets of the same assignment need its old
value, and makes them use that register. -/
def protectTargets (targets : List Operand) (v : Operand) : Gen (List Operand) := do
  let copy ← firstFree
  let checked := targets.map (avoid v copy)
  if checked.any (·.2) then
    let op := if v.kind = .upvalue then .getUpval else .move
    let _ ← emitABC op copy v.info 0
    reserve 1
  return checked.map (·.1)

def storeAll : List Operand → Gen Unit
  | [] => pure ()
  | t :: rest => do
    store t (.plain .nonRelocatable ((← getFn).free - 1))
    storeAll rest

/-- Assigns `count` values, the last of which is `e`, to targets, the last one first. -/
def assignTo (targets : List Operand) (count : Int) (e : Operand) : Gen Unit := do
  let wanted : Int := targets.length
  if count = wanted then
    match targets with
    | [] => return
    | t :: rest =>
      store t (← giveOne e)
      storeAll rest
  else
    adjustTo wanted count e
    if count > wanted then modifyFn fun f => { f with free := f.free - (count - wanted) }
    storeAll targets

/-! ## Loops -/

/-- The kinds of loop that have a variable of their own. -/
inductive ForLoop where
  | counting
  | over

/-- The code between the values that a loop starts with and its body; the result is the place of its
first jump. The registers of the loop start at `base`, and it has `vars` variables. -/
def startLoop (kind : ForLoop) (base vars : Int) : Gen JumpList := do
  let prep ←
    match kind with
    | .counting => pure (.ofHead (← emitAsBx .forPrep base noJump))
    | .over => jump
  enterScope false
  activate vars
  reserve vars
  enterScope false
  return prep

def endLoop (kind : ForLoop) (base vars line : Int) (prep : JumpList) : Gen Unit := do
  leaveScope
  leaveScope
  aimHere prep
  let back ←
    match kind with
    | .counting => emitAsBx .forLoop base noJump
    | .over => do
      let _ ← emitABC .tForCall base 0 vars
      moveLastToLine line
      emitAsBx .tForLoop (base + 2) noJump
  aimAt (.ofHead back) ((← listHead prep) + 1)
  moveLastToLine line

/-! ## Returns -/

/-- Returns `count` values, the last of which is `e`. One call alone is a tail call. -/
def returnValues (count : Int) (e : Operand) : Gen Unit := do
  let active ← activeLocals
  if e.isOpen then
    giveAll e
    if e.kind = .call ∧ count = 1 then
      updateInstr e.info (·.setOpcode Opcode.tailCall.code)
      require (((← instrAt e.info).a : Int) == active) .tailCallBase
    ret active multRet
  else if count = 1 then ret (← toAnyRegister e).info 1
  else
    let _ ← toNextRegister e
    require (count == (← getFn).free - active) .returnConsecutive
    ret active count

/-! ## The tree -/

/-- After a statement the registers above the local variables are free. -/
def endStat : Gen Unit := do
  let f ← getFn
  require (f.stack ≥ f.free && f.free ≥ f.active) .registersAfterStat
  modifyFn fun f => { f with free := f.active }

section Names
variable (named : Bytes → Gen Operand)

mutual

def expr : Expr → Gen Operand
  | .missing f => stopAt f
  | .nil m => do
    mark m
    return .plain .nil 0
  | .true m => do
    mark m
    return .plain .true 0
  | .false m => do
    mark m
    return .plain .false 0
  | .number x m => do
    mark m
    return .number x
  | .string s m => do
    let e ← stringOperand s
    mark m
    return e
  | .vararg m => do
    let at_ ← emitABC .vararg 0 1 0
    mark m
    return .plain .vararg at_
  | .function m b => do
    mark m
    body b
  | .table t => table t
  | .name m name => do
    mark m
    named name
  | .paren opening e closing => do
    mark opening
    let e ← expr e
    mark closing
    discharge e
  | .suffixed e rest => do suffixes (← expr e) rest
  | .unary op line m e => do
    mark m
    unary op (← expr e) line
  | .binary e rest => do operations (← expr e) rest

def suffixes : Operand → Suffixes → Gen Operand
  | e, .nil => pure e
  | e, .field m name rest => do suffixes (← fieldOf e m name) rest
  | e, .index opening key closing rest => do
    let e ← toAnyRegisterOrUpvalue e
    mark opening
    let key ← toValue (← expr key)
    mark closing
    suffixes (← indexed e key) rest
  | e, .call line as rest => do
    let e ← toNextRegister e
    suffixes (← call e (← args as) line) rest
  | e, .method m name line as rest => do
    mark m
    let e ← method e (← stringOperand name)
    suffixes (← call e (← args as) line) rest

def operations : Operand → Operations → Gen Operand
  | e, .nil => pure e
  | e, .cons op line m right rest => do
    mark m
    let e ← prepareLeft op e
    operations (← binary op e (← expr right) line) rest

/-- Code for a list of expressions after `count` others: all but the last go into registers. The
results are the last one and the number of all. -/
def exprs : Exprs → (count : Int) → Gen (Operand × Int)
  | .one e, count => return (← expr e, count + 1)
  | .more e comma rest, count => do
    let e ← expr e
    mark comma
    let _ ← toNextRegister e
    exprs rest (count + 1)

def args : Args → Gen Operand
  | .missing f => stopAt f
  | .none opening closing => do
    mark opening
    mark closing
    return .void
  | .list opening values closing => do
    mark opening
    let (e, _) ← exprs values 0
    giveAll e
    mark closing
    return e
  | .table t => table t
  | .string s m => do
    let e ← stringOperand s
    mark m
    return e

/-- Code for a table constructor. The instruction that makes the table is told the numbers of its
fields afterwards. -/
def table : Table → Gen Operand
  | .mk opening fs closing => do
    let at_ ← emitABC .newTable 0 0 0
    let t ← toNextRegister (.plain .relocatable at_)
    mark opening
    let c ← fields fs { reg := t.info }
    mark closing
    let c ← closeItems c
    updateInstr at_ fun i => (i.setB (sizeByte c.items)).setC (sizeByte c.keyed)
    return t

def fields : Fields → Constructor → Gen Constructor
  | .nil, c => pure c
  | .item value separator rest, c => do
    let c ← closeItem c
    let e ← expr value
    mark separator
    fields rest { c with last := e, items := c.items + 1, waiting := c.waiting + 1 }
  | .named m name assign value separator rest, c => do
    let c ← closeItem c
    let reg ← firstFree
    mark m
    let key ← stringOperand name
    mark assign
    let (_, rk) ← toRK key
    let c ← storeField c reg rk (← expr value)
    mark separator
    fields rest c
  | .keyed opening key assign value separator rest, c => do
    let c ← closeItem c
    let reg ← firstFree
    mark opening
    let key ← toValue (← expr key)
    mark assign
    let (_, rk) ← toRK key
    let c ← storeField c reg rk (← expr value)
    mark separator
    fields rest c

/-- Code for a function, which goes into the next register of the function around. -/
def body : Body → Gen Operand
  | .mk line opening isMethod params dots inner b last closing => do
    openFunction line
    mark opening
    if isMethod then
      newLocal (bytes "self")
      activate 1
    newLocals params
    if let some m := dots then mark m
    activate params.length
    modifyFn fun f => { f with isVararg := dots.isSome, params := f.active }
    reserve (← getFn).active
    mark inner
    block b
    modifyFn fun f => { f with lastLine := last }
    mark closing
    let n ← closeFunction
    toNextRegister (.plain .relocatable (← emitABx .closure 0 n))

def stat : Stat → Gen Unit
  | .missing f => stopAt f
  | .empty m => mark m
  | .block opening b closing => do
    mark opening
    enterScope false
    block b
    leaveScope
    mark closing
  | .cond cs elseMark elseBody closing => do
    let escapes ← clauses cs elseMark.isSome .empty
    if let some m := elseMark then
      mark m
      enterScope false
      block elseBody
      leaveScope
    mark closing
    aimHere escapes
  | .while opening test doMark b closing => do
    mark opening
    let start ← label
    let exit ← condition (← expr test)
    enterScope true
    mark doMark
    enterScope false
    block b
    leaveScope
    jumpBackTo start
    mark closing
    leaveScope
    aimHere exit
  | .repeat opening b untilMark test => do
    let start ← label
    enterScope true
    enterScope false
    mark opening
    block b
    mark untilMark
    let again ← condition (← expr test)
    let scope ← currentScope
    if scope.isCaptured then closeOnJump again scope.active
    leaveScope
    aimAt again start
    leaveScope
  | .forNum line opening name assign first comma limit s doMark b closing => do
    enterScope true
    mark opening
    let base ← firstFree
    newLocal (bytes "(for index)")
    newLocal (bytes "(for limit)")
    newLocal (bytes "(for step)")
    newLocal name
    mark assign
    let _ ← toNextRegister (← expr first)
    mark comma
    let _ ← toNextRegister (← expr limit)
    step s
    activate 3
    mark doMark
    let prep ← startLoop .counting base 1
    block b
    endLoop .counting base 1 line prep
    mark closing
    leaveScope
  | .forIn opening name names inMark line values doMark b closing => do
    enterScope true
    mark opening
    let base ← firstFree
    newLocal (bytes "(for generator)")
    newLocal (bytes "(for state)")
    newLocal (bytes "(for control)")
    newLocal name
    newLocals names
    let vars : Int := names.length + 1
    mark inMark
    let (e, count) ← exprs values 0
    adjustTo 3 count e
    ensureRegisters 3
    activate 3
    mark doMark
    let prep ← startLoop .over base vars
    block b
    endLoop .over base vars line prep
    mark closing
    leaveScope
  | .function line opening name fields method b => do
    mark opening
    let v ← path (← named name) fields
    let v ←
      match method with
      | some (m, key) => fieldOf v m key
      | none => pure v
    store v (← body b)
    moveLastToLine line
  | .localFunction opening name b => do
    mark opening
    newLocal name
    activate 1
    let e ← body b
    let here ← pc
    updateLocal e.info fun v => { v with startPC := here }
  | .localVars names vs => do
    newLocals names
    let (e, count) ← values vs
    adjustTo names.length count e
    activate names.length
  | .label line m name isLast => do
    mark m
    defineLabel name line isLast
  | .goto g => do
    let l ← jump
    goto g l
  | .ret vs m => do
    let (e, count) ← values vs
    if count = 0 then ret 0 0 else returnValues count e
    mark m
  | .call e m => do
    let e ← expr e
    mark m
    updateInstr e.info (·.setC 1)
  | .assign ts assign vs => do
    let ts ← targets ts []
    mark assign
    let (e, count) ← exprs vs 0
    assignTo ts count e

/-- Code for values that may be left out; the results are the last one and their number. -/
def values : Values → Gen (Operand × Int)
  | .none m => do
    mark m
    return (.void, 0)
  | .given m es => do
    mark m
    exprs es 0

def step : Step → Gen Unit
  | .unit => do
    let k ← internConstant (.number (.ofInt 1))
    let _ ← emitConstant (← getFn).free k
    reserve 1
  | .given comma e => do
    mark comma
    let _ ← toNextRegister (← expr e)

/-- Code for the conditions and blocks of a conditional statement. The results are the jumps to its
end: `escapes` and one for each block that another clause or an `else`, as `hasElse` says, follows. A
block that is nothing but a jump gets no jump of its own: the condition jumps to the label at once. -/
def clauses : Clauses → (hasElse : Bool) → (escapes : JumpList) → Gen JumpList
  | .nil, _, escapes => pure escapes
  | .cons opening test thenMark lead b rest, hasElse, escapes => do
    mark opening
    let e ← expr test
    mark thenMark
    let exit ←
      match lead with
      | some l => do
        let e ← continueIfFalse e
        enterScope false
        goto l.goto e.whenTrue
        mark l.semicolons
        if l.alone then pure none else pure (some (← jump))
      | none => do
        let e ← continueIfTrue e
        enterScope false
        pure (some e.whenFalse)
    match exit with
    | none =>
      leaveScope
      clauses rest hasElse escapes
    | some exit =>
      block b
      leaveScope
      let isLast := match rest with
        | .nil => true
        | .cons .. => false
      let escapes ← if isLast && !hasElse then pure escapes else concat escapes (← jump)
      aimHere exit
      clauses rest hasElse escapes

/-- Code for the targets of an assignment after those in `before`, the last one first. -/
def targets : Targets → (before : List Operand) → Gen (List Operand)
  | .nil, before => pure before
  | .cons comma e m rest, before => do
    mark comma
    let v ← expr e
    let before ←
      match v.kind with
      | .indexed .. => pure before
      | _ => protectTargets before v
    mark m
    targets rest (v :: before)

def block : Block → Gen Unit
  | .nil => pure ()
  | .cons s rest => do
    stat s
    endStat
    block rest

end

def chunk (c : Chunk) : Gen Proto := do
  mark c.opening
  openMain
  block named c.body
  mark c.closing
  let _ ← closeFunction
  let s ← get
  return s.fn.toProto s.source

end Names

end RegisterCompiler.Gen
