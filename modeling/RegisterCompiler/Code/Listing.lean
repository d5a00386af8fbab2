import RegisterCompiler.Code.ChunkName
import RegisterCompiler.Code.Proto

/-!
# Listings
-/

namespace RegisterCompiler.Proto

def constantText (p : Proto) (k : Int) : Bytes :=
  if k < 0 then bytes "?"
  else
    match p.constantArray[k.toNat]? with
    | some v => v.text
    | none => bytes "?"

def operandText (p : Proto) (rk : Nat) : Bytes :=
  if isConstantRK rk then p.constantText (constantOfRK rk) else []

def upvalueText (p : Proto) (n : Nat) : Bytes :=
  match p.upvalueList[n]? with
  | some u => if u.name.isEmpty then bytes "-" else u.name
  | none => bytes "-"

def joinParts (parts : List Bytes) : Bytes :=
  Bytes.intercalate (bytes " ") (parts.filter fun s => !s.isEmpty)

/-- What the operands of the instruction at `pc` name: constants, upvalues, jump targets, nested
functions or the batch of a table. -/
def comment (p : Proto) (pc : Nat) (i : Instr) : Bytes :=
  match i.op? with
  | some .loadK => p.constantText i.bx
  | some .getUpval | some .setUpval => p.upvalueText i.b
  | some .getTabUp => joinParts [p.upvalueText i.b, p.operandText i.c]
  | some .setTabUp => joinParts [p.upvalueText i.a, p.operandText i.b, p.operandText i.c]
  | some .getTable | some .self => p.operandText i.c
  | some .setTable | some .add | some .sub | some .mul | some .div | some .mod | some .pow
  | some .eq | some .lt | some .le => joinParts [p.operandText i.b, p.operandText i.c]
  | some .jmp | some .forLoop | some .forPrep | some .tForLoop =>
    bytes "to " ++ Bytes.ofInt ((pc : Int) + 2 + i.sbx)
  | some .closure => bytes "function #" ++ Bytes.ofNat i.bx
  | some .setList =>
    if i.c = 0 then
      match p.codeArray[pc + 1]? with
      | some extra => bytes "batch " ++ Bytes.ofNat extra.ax
      | none => []
    else []
  | _ => []

def listInstr (p : Proto) (pc : Nat) (i : Instr) : Bytes :=
  let line := p.lineAt pc
  let head := Bytes.zeroPad 4 (Bytes.ofNat (pc + 1)) ++ bytes "  [" ++
    (if line > 0 then Bytes.ofInt line else bytes "-") ++ bytes "]  " ++ i.text
  let note := p.comment pc i
  if note.isEmpty then head else head ++ bytes "  ; " ++ note

def listOwn (isMain : Bool) (p : Proto) : List Bytes :=
  let code := p.codeArray
  let constants := p.constantArray
  let upvalues := p.upvalueList
  let num (n : Nat) : Bytes := Bytes.ofNat n
  let int (n : Int) : Bytes := Bytes.ofInt n
  let title := bytes (if isMain then "main" else "function") ++ bytes " <" ++ shownChunk p.source ++
    bytes ":" ++ int p.line ++ bytes "," ++ int p.lastLine ++ bytes "> (" ++ num code.size ++
    bytes " instructions)"
  let counts := int p.params ++ bytes (if p.isVararg then "+" else "") ++ bytes " params, " ++
    int p.stack ++ bytes " slots, " ++ num upvalues.length ++ bytes " upvalues, " ++
    num p.locals.length ++ bytes " locals, " ++ num constants.size ++ bytes " constants, " ++
    num p.children.length ++ bytes " functions"
  let row (n : Nat) (fields : List Bytes) : Bytes :=
    bytes "  " ++ num n ++ fields.flatMap (bytes "  " ++ ·)
  let heading (name : String) (n : Nat) : Bytes := bytes name ++ bytes " (" ++ num n ++ bytes "):"
  [title, counts] ++
    code.toList.mapIdx (fun pc i => p.listInstr pc i) ++
    [heading "constants" constants.size] ++
    constants.toList.mapIdx (fun k v => row (k + 1) [v.text]) ++
    [heading "locals" p.locals.length] ++
    p.locals.mapIdx (fun n v => row n [v.name, int (v.startPC + 1), int (v.endPC + 1)]) ++
    [heading "upvalues" upvalues.length] ++
    upvalues.mapIdx (fun n u => row n [u.name, num (if u.isLocal then 1 else 0), int u.index])

/-- The lines of functions in the order of `walk`, with an empty line between them. -/
def listAll : (isMain : Bool) → List Proto → List Bytes
  | _, [] => []
  | isMain, p :: ps => (if isMain then [] else [[]]) ++ listOwn isMain p ++ listAll false ps

def listing (p : Proto) : Bytes :=
  (listAll true p.walk).flatMap (· ++ [Bytes.lf])

end RegisterCompiler.Proto
