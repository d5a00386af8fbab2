import RegisterCompiler.Code.Instr
import RegisterCompiler.Code.Constant

/-!
# Compiled functions

Four of the lists of a function may be absent, which is not the same as empty: images tell the two apart.
A list of nested functions read from an image may also have gaps, which are `none`.
-/

namespace RegisterCompiler

/-- Where a closure finds an upvalue: in a register of the enclosing function, or among that
function's own upvalues. -/
structure Upvalue where
  name : Bytes
  isLocal : Bool
  index : Int
deriving DecidableEq

/-- The debug record of a local variable, which is live from `startPC` up to `endPC`, that one
excluded. -/
structure LocalVar where
  name : Bytes
  startPC : Int
  endPC : Int
deriving DecidableEq

structure Proto where
  source : Bytes
  /-- The line of the definition, 0 for the main function. -/
  line : Int
  lastLine : Int
  params : Int
  isVararg : Bool
  stack : Int
  code : Option (Array Instr)
  constants : Option (Array Constant)
  protos : Option (List (Option Proto))
  upvalues : Option (List Upvalue)
  lines : Array Int
  locals : List LocalVar

namespace Proto

def blank : Proto :=
  ⟨[], 0, 0, 0, false, 0, none, none, none, none, #[], []⟩

instance : Inhabited Proto := ⟨blank⟩

def codeArray (p : Proto) : Array Instr :=
  p.code.getD #[]

def constantArray (p : Proto) : Array Constant :=
  p.constants.getD #[]

def children (p : Proto) : List (Option Proto) :=
  p.protos.getD []

def upvalueList (p : Proto) : List Upvalue :=
  p.upvalues.getD []

def present {α : Type} (xs : Array α) : Option (Array α) :=
  if xs.isEmpty then none else some xs

def stripUpvalue (u : Upvalue) : Upvalue :=
  { u with name := [] }

mutual

/-- The function without lines, local variable records and upvalue names, at every depth. The lists
of nested functions and of upvalues are present in the result; code and constants are absent when
they are empty. -/
def strip : Proto → Proto
  | ⟨source, line, lastLine, params, isVararg, stack, code, constants, protos, upvalues, _, _⟩ =>
    ⟨source, line, lastLine, params, isVararg, stack, present (code.getD #[]),
      present (constants.getD #[]), some (stripProtos protos),
      some ((upvalues.getD []).map stripUpvalue), #[], []⟩

def stripProtos : Option (List (Option Proto)) → List (Option Proto)
  | none => []
  | some ps => stripList ps

def stripList : List (Option Proto) → List (Option Proto)
  | [] => []
  | p :: ps => stripChild p :: stripList ps

def stripChild : Option Proto → Option Proto
  | none => none
  | some p => some (strip p)

end

mutual

def walk : Proto → List Proto
  | ⟨source, line, lastLine, params, isVararg, stack, code, constants, protos, upvalues, lines,
      locals⟩ =>
    ⟨source, line, lastLine, params, isVararg, stack, code, constants, protos, upvalues, lines,
      locals⟩ :: walkProtos protos

def walkProtos : Option (List (Option Proto)) → List Proto
  | none => []
  | some ps => walkList ps

def walkList : List (Option Proto) → List Proto
  | [] => []
  | p :: ps => walkChild p ++ walkList ps

def walkChild : Option Proto → List Proto
  | none => []
  | some p => walk p

end

/-- The source line of the instruction at `pc`, 0 if there is no line for it. -/
def lineAt (p : Proto) (pc : Int) : Int :=
  if pc < 0 then 0 else p.lines[pc.toNat]?.getD 0

/-- The name of the `n`-th of these variables that is live at `pc`, counted from 1. The records are
in the order of their starts, so the search ends at the first that starts later. -/
def nthLive (pc : Int) : List LocalVar → (n : Int) → Bytes
  | [], _ => []
  | v :: vs, n =>
    if v.startPC > pc then []
    else if pc < v.endPC then (if n - 1 = 0 then v.name else nthLive pc vs (n - 1))
    else nthLive pc vs n

/-- The name of the `n`-th local variable that is live at `pc`, counted from 1; empty if there is
none. -/
def nameOfLocal (p : Proto) (n pc : Int) : Bytes :=
  nthLive pc p.locals n

end Proto

end RegisterCompiler
