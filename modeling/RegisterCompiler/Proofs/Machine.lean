import RegisterCompiler.Code.Arith
import RegisterCompiler.Code.Constant
import RegisterCompiler.Code.Instr

/-!
# The register machine

What the operations do, as the comments on `Opcode` say.

* `Value`, `Frame` : values, and the registers and upvalues of a function that runs;
* `Host` : what the machine leaves to its surroundings, such as tables and calls. Each of them may fail,
  and may change the frame, since a called function can reach variables that are captured;
* `exec` : one instruction;
* `Config`, `step` : one step of a function's code.
-/

namespace RegisterCompiler.Machine

/-- A value of the language; tables and functions are references. -/
inductive Value (ρ : Type) where
  | nil
  | boolean (b : Bool)
  | number (x : Number)
  | string (s : Bytes)
  | ref (r : ρ)

namespace Value
variable {ρ : Type}

/-- The value of a constant; one of an unknown kind is taken for nil. -/
def ofConstant (v : Constant) : Value ρ :=
  match v.key with
  | .nil => .nil
  | .boolean b => .boolean b
  | .number x => .number ⟨x⟩
  | .string s => .string s

def truth : Value ρ → Bool
  | .nil | .boolean false => false
  | _ => true

end Value

structure Frame (ρ σ : Type) where
  reg : Nat → Value ρ
  upval : Nat → Value ρ
  /-- The register after the last of an open list of values. -/
  top : Nat
  extra : List (Value ρ)
  mem : σ

namespace Frame
variable {ρ σ : Type}

def setReg (f : Frame ρ σ) (r : Nat) (v : Value ρ) : Frame ρ σ :=
  { f with reg := fun q => if q = r then v else f.reg q }

def setUpval (f : Frame ρ σ) (u : Nat) (v : Value ρ) : Frame ρ σ :=
  { f with upval := fun q => if q = u then v else f.upval q }

def setNils (f : Frame ρ σ) (first last : Nat) : Frame ρ σ :=
  { f with reg := fun q => if first ≤ q ∧ q ≤ last then .nil else f.reg q }

/-- Puts `n` values into the registers from `first` on; missing ones are nil. -/
def setValues (f : Frame ρ σ) (first n : Nat) (vs : List (Value ρ)) : Frame ρ σ :=
  { f with reg := fun q => if first ≤ q ∧ q < first + n then vs.getD (q - first) .nil else f.reg q }

/-- Puts values into the registers from `first` on: `n - 1` of them, or all if `n` is 0. -/
def setResults (f : Frame ρ σ) (first n : Nat) (vs : List (Value ρ)) : Frame ρ σ :=
  if n = 0 then { f.setValues first vs.length vs with top := first + vs.length }
  else f.setValues first (n - 1) vs

def values (f : Frame ρ σ) (first n : Nat) : List (Value ρ) :=
  (List.range n).map fun i => f.reg (first + i)

/-- The values from register `first` on: `n - 1` of them, or all of the open list if `n` is 0. -/
def results (f : Frame ρ σ) (first n : Nat) : List (Value ρ) :=
  f.values first (if n = 0 then f.top - first else n - 1)

end Frame

/-- What the machine leaves to its surroundings. -/
structure Host (ρ σ : Type) where
  read : (table key : Value ρ) → Frame ρ σ → Option (Value ρ × Frame ρ σ)
  write : (table key value : Value ρ) → Frame ρ σ → Option (Frame ρ σ)
  newTable : (items keyed : Nat) → Frame ρ σ → Option (Value ρ × Frame ρ σ)
  /-- Arithmetic on values that are not all numbers. -/
  arith : Opcode → Value ρ → Value ρ → Frame ρ σ → Option (Value ρ × Frame ρ σ)
  compare : Opcode → Value ρ → Value ρ → Frame ρ σ → Option (Bool × Frame ρ σ)
  length : Value ρ → Frame ρ σ → Option (Value ρ × Frame ρ σ)
  concat : Value ρ → Value ρ → Frame ρ σ → Option (Value ρ × Frame ρ σ)
  call : Value ρ → List (Value ρ) → Frame ρ σ → Option (List (Value ρ) × Frame ρ σ)
  closure : Nat → Frame ρ σ → Option (Value ρ × Frame ρ σ)
  /-- Closes the upvalues of registers from one on. -/
  close : Nat → Frame ρ σ → Option (Frame ρ σ)

inductive Outcome (ρ σ : Type) where
  | goto (pc : Int) (f : Frame ρ σ)
  | ret (vs : List (Value ρ)) (f : Frame ρ σ)

section Exec
variable {ρ σ : Type} (host : Host ρ σ) (constants : Array Constant)

def constantAt (k : Nat) : Option (Value ρ) :=
  constants[k]?.map .ofConstant

def rkValue (f : Frame ρ σ) (rk : Nat) : Option (Value ρ) :=
  if isConstantRK rk then constantAt constants (constantOfRK rk).toNat else some (f.reg rk)

/-- Arithmetic: numbers are computed with, all else is left to the host. -/
def compute (op : Opcode) (x y : Value ρ) (f : Frame ρ σ) : Option (Value ρ × Frame ρ σ) :=
  match op.arith?, x, y with
  | some g, .number a, .number b => some (.number (g a b), f)
  | _, _, _ => host.arith op x y f

/-- The concatenation of `x` with the values before it, which come nearest first. -/
def concatAll : (before : List (Value ρ)) → Value ρ → Frame ρ σ → Option (Value ρ × Frame ρ σ)
  | [], x, f => some (x, f)
  | y :: before, x, f => do
    let (z, f) ← host.concat y x f
    concatAll before z f

def storeValues (table : Value ρ) : (n : Nat) → List (Value ρ) → Frame ρ σ → Option (Frame ρ σ)
  | _, [], f => some f
  | n, v :: vs, f => do
    let f ← host.write table (.number (.ofInt (n + 1))) v f
    storeValues table (n + 1) vs f

def put (r : Nat) (x : Option (Value ρ × Frame ρ σ)) (pc : Int) : Option (Outcome ρ σ) := do
  let (v, f) ← x
  return .goto pc (f.setReg r v)

/-- A comparison: the next instruction is skipped unless the outcome is `wanted`. -/
def branch (wanted : Bool) (x : Option (Bool × Frame ρ σ)) (pc : Int) : Option (Outcome ρ σ) := do
  let (b, f) ← x
  return .goto (if b = wanted then pc + 1 else pc + 2) f

/-- Runs the instruction `i` at `pc`; `ax` is the large operand after it, if there is one. -/
def exec (ax : Option Nat) (i : Instr) (pc : Int) (f : Frame ρ σ) : Option (Outcome ρ σ) := do
  let rk := rkValue constants f
  let next := pc + 1
  match ← i.op? with
  | .move => return .goto next (f.setReg i.a (f.reg i.b))
  | .loadK => return .goto next (f.setReg i.a (← constantAt constants i.bx))
  | .loadKX => return .goto (pc + 2) (f.setReg i.a (← constantAt constants (← ax)))
  | .loadBool => return .goto (if i.c = 0 then next else pc + 2) (f.setReg i.a (.boolean (i.b ≠ 0)))
  | .loadNil => return .goto next (f.setNils i.a (i.a + i.b))
  | .getUpval => return .goto next (f.setReg i.a (f.upval i.b))
  | .getTabUp => put i.a (host.read (f.upval i.b) (← rk i.c) f) next
  | .getTable => put i.a (host.read (f.reg i.b) (← rk i.c) f) next
  | .setTabUp => return .goto next (← host.write (f.upval i.a) (← rk i.b) (← rk i.c) f)
  | .setUpval => return .goto next (f.setUpval i.b (f.reg i.a))
  | .setTable => return .goto next (← host.write (f.reg i.a) (← rk i.b) (← rk i.c) f)
  | .newTable => put i.a (host.newTable i.b i.c f) next
  | .self =>
    let object := f.reg i.b
    let key ← rk i.c
    put i.a (host.read object key (f.setReg (i.a + 1) object)) next
  | .add | .sub | .mul | .div | .mod | .pow =>
    put i.a (compute host (← i.op?) (← rk i.b) (← rk i.c) f) next
  | .unm => put i.a (compute host .unm (f.reg i.b) (f.reg i.b) f) next
  | .not => return .goto next (f.setReg i.a (.boolean !(f.reg i.b).truth))
  | .len => put i.a (host.length (f.reg i.b) f) next
  | .concat =>
    put i.a (concatAll host (f.values i.b (i.c - i.b)).reverse (f.reg i.c) f) next
  | .jmp =>
    if i.a = 0 then return .goto (next + i.sbx) f
    else return .goto (next + i.sbx) (← host.close (i.a - 1) f)
  | .eq | .lt | .le => branch (i.a ≠ 0) (host.compare (← i.op?) (← rk i.b) (← rk i.c) f) pc
  | .test => return .goto (if (f.reg i.a).truth = (i.c ≠ 0 : Bool) then next else pc + 2) f
  | .testSet =>
    if (f.reg i.b).truth = (i.c ≠ 0 : Bool) then return .goto next (f.setReg i.a (f.reg i.b))
    else return .goto (pc + 2) f
  | .call =>
    let (vs, f) ← host.call (f.reg i.a) (f.results (i.a + 1) i.b) f
    return .goto next (f.setResults i.a i.c vs)
  | .tailCall =>
    let (vs, f) ← host.call (f.reg i.a) (f.results (i.a + 1) i.b) f
    return .ret vs f
  | .ret => return .ret (f.results i.a i.b) f
  | .forLoop =>
    let (v, f) ← compute host .add (f.reg i.a) (f.reg (i.a + 2)) f
    let f := f.setReg i.a v
    let (inside, f) ← host.compare .le v (f.reg (i.a + 1)) f
    if inside then return .goto (next + i.sbx) (f.setReg (i.a + 3) v) else return .goto next f
  | .forPrep =>
    let (v, f) ← compute host .sub (f.reg i.a) (f.reg (i.a + 2)) f
    return .goto (next + i.sbx) (f.setReg i.a v)
  | .tForCall =>
    let (vs, f) ← host.call (f.reg i.a) [f.reg (i.a + 1), f.reg (i.a + 2)] f
    return .goto next (f.setValues (i.a + 3) i.c vs)
  | .tForLoop =>
    match f.reg (i.a + 1) with
    | .nil => return .goto next f
    | v => return .goto (next + i.sbx) (f.setReg i.a v)
  | .setList =>
    let n := if i.b = 0 then f.top - (i.a + 1) else i.b
    let batch ← if i.c = 0 then ax else some i.c
    let f ← storeValues host (f.reg i.a) ((batch - 1) * 50) (f.values (i.a + 1) n) f
    return .goto (if i.c = 0 then pc + 2 else next) f
  | .closure => put i.a (host.closure i.bx f) next
  | .vararg => return .goto next (f.setResults i.a i.b f.extra)
  | .extraArg => none

end Exec

/-! ## Steps -/

/-- A function before an instruction, or after its end. -/
inductive Config (ρ σ : Type) where
  | running (pc : Int) (f : Frame ρ σ)
  | returned (vs : List (Value ρ)) (f : Frame ρ σ)

def Outcome.config {ρ σ : Type} : Outcome ρ σ → Config ρ σ
  | .goto pc f => .running pc f
  | .ret vs f => .returned vs f

def fetch (code : Array Instr) (pc : Int) : Option Instr :=
  if pc < 0 then none else code[pc.toNat]?

def largeOperand (code : Array Instr) (pc : Int) : Option Nat :=
  match fetch code pc with
  | some i => if i.op? = some .extraArg then some i.ax else none
  | none => none

section Step
variable {ρ σ : Type} (host : Host ρ σ) (constants : Array Constant) (code : Array Instr)

/-- One step. There is none after the end, outside the code, and where an operation fails. -/
def step : Config ρ σ → Option (Config ρ σ)
  | .returned _ _ => none
  | .running pc f => do
    let i ← fetch code pc
    return (← exec host constants (largeOperand code (pc + 1)) i pc f).config

end Step

end RegisterCompiler.Machine
