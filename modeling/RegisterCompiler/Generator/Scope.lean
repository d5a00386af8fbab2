import RegisterCompiler.Generator.Jumps

/-!
# Blocks, labels and upvalues

At the end of a block its captured variables are closed, its variables end, and its pending jumps go to
the block around it. A function reaches the variables of functions around by its upvalues, each of
which is a local variable or an upvalue of the next function around.
-/

namespace RegisterCompiler.Gen

def breakName : Bytes := bytes "break"

def envName : Bytes := bytes "_ENV"

/-! ## Labels -/

def currentScope : Gen Scope := do
  match (← getFn).scopes with
  | s :: _ => return s
  | [] => broken .scopeOpen

def pendingAt (g : Nat) : Gen Pending := do
  match (← getFn).gotos[g]? with
  | some p => return p
  | none => broken .inRange

/-- Points pending jump `g` to a label. It may not jump past the start of a local variable that is
active at the label. -/
def resolveGoto (g : Nat) (l : Label) : Gen Unit := do
  let p ← pendingAt g
  require (p.name == l.name) .labelMatches
  if p.active < l.active then
    error (.intoScope p.name p.line (← localAt p.active).name)
  aimAt p.jumps l.pc
  modifyFn fun f => { f with gotos := f.gotos.eraseIdxIfInBounds g }

def resolveEarly (g : Nat) : Gen Bool := do
  let scope ← currentScope
  let p ← pendingAt g
  let labels := (← getFn).labels
  require (scope.firstLabel ≤ labels.size) .inRange
  match (labels.toList.drop scope.firstLabel).find? fun l => l.name == p.name with
  | none => return false
  | some l =>
    if p.active > l.active && (scope.isCaptured || labels.size > scope.firstLabel) then
      closeOnJump p.jumps l.active
    resolveGoto g l
    return true

def resolveGotosFrom (l : Label) : (fuel : Nat) → (i : Nat) → Gen Unit
  | 0, _ => pure ()
  | k + 1, i => do
    match (← getFn).gotos[i]? with
    | none => return
    | some p =>
      if p.name == l.name then
        resolveGoto i l
        resolveGotosFrom l k i
      else resolveGotosFrom l k (i + 1)

def resolveGotos (l : Label) : Gen Unit := do
  resolveGotosFrom l (← getFn).gotos.size (← currentScope).firstGoto

/-- Records a jump to a label, or out of a loop under the name `breakName`. -/
def addGoto (name : Bytes) (line : Int) (jumps : JumpList) : Gen Unit := do
  let g := (← getFn).gotos.size
  modifyFn fun f => { f with gotos := f.gotos.push ⟨name, jumps, line, f.active⟩ }
  let _ ← resolveEarly g

def addLabel (l : Label) : Gen Unit := do
  modifyFn fun f => { f with labels := f.labels.push l }
  resolveGotos l

/-- Defines a label here. At the end of a block, `isLast`, the variables of the block are taken to
have ended before it. -/
def defineLabel (name : Bytes) (line : Int) (isLast : Bool) : Gen Unit := do
  let scope ← currentScope
  let labels := (← getFn).labels
  require (scope.firstLabel ≤ labels.size) .inRange
  match (labels.toList.drop scope.firstLabel).find? fun l => l.name == name with
  | some l => error (.labelDefined name l.line)
  | none =>
    let here ← label
    let active ← activeLocals
    addLabel ⟨name, here, line, if isLast then scope.active else active⟩

def markLoopEnd : Gen Unit := do
  let here ← label
  addLabel ⟨breakName, here, 0, (← getFn).active⟩

/-! ## Blocks -/

/-- Opens a block. No register above the local variables may be in use. -/
def enterScope (isLoop : Bool) : Gen Unit := do
  require ((← getFn).free == (← getFn).active) .noTemporaries
  modifyFn fun f =>
    { f with scopes := ⟨f.labels.size, f.gotos.size, f.active, false, isLoop⟩ :: f.scopes }

/-- Takes the pending jumps from place `i` on out of the block `scope`, which was just left. -/
def moveGotosFrom (scope : Scope) : (fuel : Nat) → (i : Nat) → Gen Unit
  | 0, _ => pure ()
  | k + 1, i => do
    match (← getFn).gotos[i]? with
    | none => return
    | some p =>
      if p.active > scope.active then
        if scope.isCaptured then closeOnJump p.jumps scope.active
        modifyFn fun f =>
          { f with gotos := f.gotos.modify i fun p => { p with active := scope.active } }
      if ← resolveEarly i then moveGotosFrom scope k i else moveGotosFrom scope k (i + 1)

def danglingGoto (p : Pending) : Gen Unit :=
  if p.name = breakName then error (.breakOutside p.line) else error (.noLabel p.name p.line)

def closeVariables (level : Int) : Gen Unit := do
  let j ← jump
  closeOnJump j level
  aimHere j

def endScope (scope : Scope) : Gen Unit := do
  modifyFn fun f => { f with scopes := f.scopes.drop 1 }
  deactivate scope.active
  require (scope.active == (← getFn).active) .localsInStep
  require (scope.active == (← getFn).declared.size) .inRange
  require (scope.firstLabel ≤ (← getFn).labels.size) .inRange
  modifyFn fun f => { f with free := f.active, labels := f.labels.take scope.firstLabel }

def leaveScope : Gen Unit := do
  let scope ← currentScope
  let outermost := (← getFn).scopes.length == 1
  if !outermost && scope.isCaptured then closeVariables scope.active
  if scope.isLoop then markLoopEnd
  endScope scope
  if !outermost then
    moveGotosFrom scope (← getFn).gotos.size scope.firstGoto
  else
    match (← getFn).gotos[scope.firstGoto]? with
    | some p => danglingGoto p
    | none => return

/-! ## Upvalues -/

/-- Marks the block that a local variable belongs to; `reg` is its register and the innermost block
comes first. -/
def captureIn (reg : Int) : List Scope → List Scope
  | [] => []
  | [s] => [{ s with isCaptured := true }]
  | s :: rest =>
    if s.active > reg then s :: captureIn reg rest else { s with isCaptured := true } :: rest

end Gen

namespace Func

def findUpvalue? (f : Func) (name : Bytes) : Option Nat :=
  f.upvalues.findIdx? fun u => u.name == name

end Func

namespace Gen

def addUpvalue (f : Func) (name : Bytes) (isLocal : Bool) (index : Int) : Except Cause (Func × Nat) :=
  let n := f.upvalues.size
  if (n : Int) + 1 > maxUpvalues then
    .error (.tooMany .upvalues maxUpvalues (if f.level = 0 then none else some f.line))
  else .ok ({ f with upvalues := f.upvalues.push ⟨name, isLocal, index⟩ }, n)

inductive UpvalueFault where
  | error (cause : Cause)
  /-- A function has a variable without a record, or a variable outside all its blocks. -/
  | noPlace

/-- The upvalue called `name` of a function inside the functions `outer`, the nearest first, none of
whose local variables is meant. A local variable of the nearest function is captured directly; what
is further out is reached through the upvalues of the functions between. The result has the
functions with the upvalues added. -/
def resolveUpvalue (name : Bytes) : (f : Func) → (outer : List Func) →
    Except UpvalueFault (Option Nat × Func × List Func)
  | f, outer =>
    match f.findUpvalue? name with
    | some i => .ok (some i, f, outer)
    | none =>
      match outer with
      | [] => .ok (none, f, [])
      | parent :: rest =>
        if parent.active > parent.declared.size then .error .noPlace
        else
          match parent.findLocal? name with
          | some reg =>
            if parent.scopes.isEmpty then .error .noPlace
            else
              match addUpvalue f name true reg with
              | .error e => .error (.error e)
              | .ok (f, i) =>
                .ok (some i, f, { parent with scopes := captureIn reg parent.scopes } :: rest)
          | none =>
            match resolveUpvalue name parent rest with
            | .error e => .error e
            | .ok (none, parent, rest) => .ok (none, f, parent :: rest)
            | .ok (some j, parent, rest) =>
              match addUpvalue f name false j with
              | .error e => .error (.error e)
              | .ok (f, i) => .ok (some i, f, parent :: rest)

def makeUpvalue (name : Bytes) : Gen (Option Nat) := do
  let s ← get
  match resolveUpvalue name s.fn s.outer with
  | .error (.error cause) => error cause
  | .error .noPlace => broken .inRange
  | .ok (i, f, outer) =>
    set { s with fn := f, outer := outer }
    return i

def declareUpvalue (name : Bytes) (isLocal : Bool) (index : Int) : Gen Int := do
  match addUpvalue (← getFn) name isLocal index with
  | .error cause => error cause
  | .ok (f, i) =>
    modify fun s => { s with fn := f }
    return i

end Gen

end RegisterCompiler
