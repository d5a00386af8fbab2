import RegisterCompiler.Generator.Operation

/-!
# Functions

A function from its first to its last instruction, and the state seen from another of the open ones.
-/

namespace RegisterCompiler

namespace GenState

def functions (s : GenState) : List Func :=
  s.outer.reverse ++ s.fn :: s.inner

def focus (level : Nat) (s : GenState) : GenState :=
  let all := s.functions
  match all.drop level with
  | f :: inner => { s with outer := (all.take level).reverse, fn := f, inner := inner }
  | [] => s

def focusInnermost (s : GenState) : GenState :=
  s.focus (s.outer.length + s.inner.length)

end GenState

namespace Gen

/-- Starts the main function: it takes extra arguments, and its one upvalue is the environment. -/
def openMain : Gen Unit := do
  onLine 1
  enterScope false
  modifyFn fun f => { f with isVararg := true }
  let _ ← declareUpvalue envName true 0

def openFunction (line : Int) : Gen Unit := do
  require (← get).inner.isEmpty .openInnermost
  modify fun s =>
    { s with outer := s.fn :: s.outer, fn := { level := s.outer.length + 1, line := line } }
  enterScope false

/-- Ends the innermost function with a return. Jumps get their final targets, and the function around
gets the finished one; the result is its place there, 0 for the main function. -/
def closeFunction : Gen Int := do
  require (!(← getFn).isClosed) .closeOnce
  require (← get).inner.isEmpty .closeInnermost
  ret 0 0
  leaveScope
  require (← getFn).scopes.isEmpty .scopesClosed
  modifyFn fun f => { f with code := threadJumps f.code, isClosed := true }
  let s ← get
  match s.outer with
  | [] => return 0
  | parent :: outer =>
    set { s with fn := parent, outer := outer }
    let n := parent.protos.size
    limit (n + 1) maxBx .functions
    modifyFn fun f => { f with protos := f.protos.push (s.fn.toProto s.source) }
    return n

end Gen

end RegisterCompiler
