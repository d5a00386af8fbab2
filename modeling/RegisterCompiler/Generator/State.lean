import Std.Data.HashMap
import RegisterCompiler.Code.Proto
import RegisterCompiler.Generator.Operand
import RegisterCompiler.Source.Error

/-!
# The state of code generation
-/

namespace RegisterCompiler

/-! ## Failures -/

/-- What the steps of generation require. Generation from a tree keeps to it; a caller that drives
the steps by hand may not. -/
inductive Invariant where
  | openInnermost
  | closeOnce
  | closeInnermost
  | scopesClosed
  | emitOpen
  | layoutABC (op : Opcode)
  | noOperandB (op : Opcode)
  | noOperandC (op : Opcode)
  | operandRange (op : Opcode)
  | layoutABx (op : Opcode)
  | rangeBx (op : Opcode)
  | rangeAx
  | someToStore
  | freedTop
  | noTemporaries
  | scopeOpen
  | localsInStep
  | labelMatches
  | environment
  | targetNotNegative
  | targetNotFuture
  | closesJump
  | listNotEmpty
  | dischargeable (kind : Operand.Kind)
  | storeTarget (kind : Operand.Kind)
  | indexWithoutJumps
  | indexable (kind : Operand.Kind)
  | invertible (code : Nat)
  | knownUnary
  | knownBinary
  | noTrueJumps
  | noFalseJumps
  | concatAdjacent
  | negatable (kind : Operand.Kind)
  | registersAfterStat
  | tailCallBase
  | returnConsecutive
  | calleeInRegister
  | inRange
  | chainEnds

def Invariant.message : Invariant → Bytes
  | .openInnermost => bytes "Open on a function that is not innermost"
  | .closeOnce => bytes "Close called twice"
  | .closeInnermost => bytes "Close on a function that is not innermost"
  | .scopesClosed => bytes "blocks left open at Close"
  | .emitOpen => bytes "emit into a closed function"
  | .layoutABC op => bytes "codeABC with non-ABC opcode " ++ op.name
  | .noOperandB op => bytes "operand B given to " ++ op.name
  | .noOperandC op => bytes "operand C given to " ++ op.name
  | .operandRange op => bytes "operand out of range for " ++ op.name
  | .layoutABx op => bytes "codeABx with opcode " ++ op.name
  | .rangeBx op => bytes "Bx out of range for " ++ op.name
  | .rangeAx => bytes "EXTRAARG out of range"
  | .someToStore => bytes "SetList with nothing to store"
  | .freedTop => bytes "freed register is not the top register"
  | .noTemporaries => bytes "EnterBlock with live temporaries"
  | .scopeOpen => bytes "no open block"
  | .localsInStep => bytes "local variable levels out of step"
  | .labelMatches => bytes "closeGoto with mismatched label"
  | .environment => bytes "no _ENV in scope"
  | .targetNotNegative => bytes "jump to a negative pc"
  | .targetNotFuture => bytes "PatchList to a future pc"
  | .closesJump => bytes "PatchClose on a non-jump"
  | .listNotEmpty => bytes "Head of empty jump list"
  | .dischargeable k => bytes "discharge2Reg of " ++ k.name
  | .storeTarget k => bytes "StoreVar to non-variable " ++ k.name
  | .indexWithoutJumps => bytes "indexing an expression with jumps"
  | .indexable k => bytes "indexing " ++ k.name
  | .invertible code => bytes "invertJump on " ++ (OpInfo.ofCode code).name
  | .knownUnary => bytes "unknown unary operator"
  | .knownBinary => bytes "unknown binary operator"
  | .noTrueJumps => bytes "and: left operand has true jumps"
  | .noFalseJumps => bytes "or: left operand has false jumps"
  | .concatAdjacent => bytes "concat operands not adjacent"
  | .negatable k => bytes "not of " ++ k.name
  | .registersAfterStat => bytes "register level out of range after statement"
  | .tailCallBase => bytes "tail call base is not the first free local"
  | .returnConsecutive => bytes "return values not in consecutive registers"
  | .calleeInRegister => bytes "call of a value not in a register"
  | .inRange => bytes "index out of range"
  | .chainEnds => bytes "endless jump list"

inductive Failure where
  | error (e : CompileError)
  | broken (i : Invariant)

/-! ## Functions under construction -/

structure Scope where
  firstLabel : Nat
  firstGoto : Nat
  active : Int
  isCaptured : Bool
  isLoop : Bool

structure Label where
  name : Bytes
  pc : Int
  line : Int
  active : Int

structure Pending where
  name : Bytes
  jumps : JumpList
  line : Int
  active : Int

structure Func where
  level : Nat
  line : Int
  lastLine : Int := 0
  params : Int := 0
  isVararg : Bool := false
  /-- Registers 0 and 1 are always there. -/
  stack : Int := 2
  code : Array Instr := #[]
  lines : Array Int := #[]
  constants : Array Constant := #[]
  constantPlaces : Std.HashMap Constant.Key Nat := ∅
  protos : Array Proto := #[]
  upvalues : Array Upvalue := #[]
  locals : Array LocalVar := #[]
  scopes : List Scope := []
  /-- For each register of a declared local variable the place of its record. -/
  declared : Array Nat := #[]
  labels : Array Label := #[]
  gotos : Array Pending := #[]
  pending : JumpList := .empty
  lastTarget : Int := 0
  free : Int := 0
  active : Int := 0
  isClosed : Bool := false

def Func.toProto (source : Bytes) (f : Func) : Proto where
  source := source
  line := f.line
  lastLine := f.lastLine
  params := f.params
  isVararg := f.isVararg
  stack := f.stack
  code := Proto.present f.code
  constants := Proto.present f.constants
  protos := if f.protos.isEmpty then none else some (f.protos.toList.map some)
  upvalues := if f.upvalues.isEmpty then none else some f.upvalues.toList
  lines := f.lines
  locals := f.locals.toList

/-- The function under construction, those around it with the nearest first, and, when the steps are
applied to a function that is not the innermost one, those inside it with the nearest first. -/
structure GenState where
  source : Bytes
  line : Int
  fn : Func
  outer : List Func
  inner : List Func

def GenState.initial (source : Bytes) : GenState :=
  ⟨source, 0, { level := 0, line := 0 }, [], []⟩

abbrev Gen := StateT GenState (Except Failure)

namespace Gen

def getFn : Gen Func :=
  return (← get).fn

def firstFree : Gen Int :=
  return (← getFn).free

def activeLocals : Gen Int :=
  return (← getFn).active

def modifyFn (h : Func → Func) : Gen Unit :=
  modify fun s => { s with fn := h s.fn }

def require (holds : Bool) (i : Invariant) : Gen Unit :=
  if holds then pure () else throw (.broken i)

def broken {α : Type} (i : Invariant) : Gen α :=
  throw (.broken i)

def error {α : Type} (cause : Cause) : Gen α := do
  let s ← get
  throw (.error ⟨s.source, s.line, cause, []⟩)

def place (i : Int) (size : Nat) : Gen Nat :=
  if 0 ≤ i ∧ i < size then pure i.toNat else broken .inRange

def limit (n max : Int) (what : Counted) : Gen Unit := do
  if n > max then
    let f ← getFn
    error (.tooMany what max (if f.level = 0 then none else some f.line))

def onLine (line : Int) : Gen Unit :=
  modify fun s => { s with line := line }

end Gen

end RegisterCompiler
