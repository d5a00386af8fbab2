import RegisterCompiler.Source.Scan
import RegisterCompiler.Source.Tree

/-!
# Reading trees

`readChunk` turns the tokens of a source into a tree. Reading never fails: a token that cannot stand
where it stands becomes a fault in the tree, and all tokens after it are dropped, so that every loop
ends. The grammar recurses on the number of nested levels that are still allowed.
-/

namespace RegisterCompiler

structure Feed where
  tokens : List Token
  /-- The line of the last token read, 1 before the first. -/
  line : Nat
  size : Nat

abbrev Reader := StateM Feed

def maxLevels : Nat := 200

namespace Mark

/-- The mark of two places next to each other: the first fault, or else the line of the second. -/
def andThen (m₁ m₂ : Mark) : Mark :=
  match m₁ with
  | .stop f => .stop f
  | .line _ => m₂

end Mark

namespace Reader

/-! ## Single tokens -/

def endToken : Token :=
  ⟨.eof, Token.Kind.eof.text, [], .zero, ⟨0, 1, 0⟩⟩

def current : Reader Token :=
  return (← get).tokens.headD endToken

def following : Reader Token :=
  return ((← get).tokens.drop 1).headD endToken

def kind : Reader Token.Kind :=
  return (← current).kind

def line : Reader Nat :=
  return (← current).pos.line

def isNext (k : Token.Kind) : Reader Bool :=
  return (← kind) == k

def bound : Reader Nat :=
  return (← get).size

def here : Reader Mark :=
  return .line (← get).line

def fault (cause : Cause) : Reader SyntaxFault := do
  let t ← current
  modify fun s => { s with tokens := [] }
  return ⟨cause, t.pos.line, t.near⟩

def stop (cause : Cause) : Reader Mark :=
  return .stop (← fault cause)

/-- Reads the next token. A piece of text that is no token is a fault as soon as it comes next. -/
def advance : Reader Mark := do
  let s ← get
  match s.tokens with
  | [] => here
  | t :: rest =>
    set { s with tokens := rest, line := t.pos.line }
    match (rest.headD endToken).kind with
    | .fault f => stop (.scan f)
    | _ => here

def expect (k : Token.Kind) : Reader Mark := do
  if ← isNext k then advance else stop (.expected k)

def accept (k : Token.Kind) : Reader (Option Mark) := do
  if ← isNext k then return some (← advance) else return none

def expectClosing (what who : Token.Kind) (opened : Nat) : Reader Mark := do
  if ← isNext what then advance
  else if opened = (← line) then stop (.expected what)
  else stop (.expectedToClose what who opened)

def name : Reader (Mark × Bytes) := do
  let t ← current
  return (← expect .name, t.literal)

def advanceName : Reader (Mark × Bytes) := do
  let m ← advance
  let (m', s) ← name
  return (m.andThen m', s)

def semicolons : (fuel : Nat) → (m : Mark) → Reader Mark
  | 0, m => pure m
  | k + 1, m => do
    match ← accept (.symbol .semicolon) with
    | some m' => semicolons k (m.andThen m')
    | none => return m

def endsBlock (withUntil : Bool) : Reader Bool := do
  match ← kind with
  | .word .kElse | .word .kElseif | .word .kEnd | .eof => return true
  | .word .kUntil => return withUntil
  | _ => return false

/-! ## Lists -/

/-- The list that ends in `last` and is made of these cells, the last one first. -/
def assemble {α : Type} (cells : List (α → α)) (last : α) : α :=
  cells.foldl (fun rest cell => cell rest) last

/-- An expression list of which the expressions in `acc`, latest first, and `e` are read. -/
def exprsFrom (expr : Reader Expr) : (fuel : Nat) → (acc : List (Exprs → Exprs)) → (e : Expr) →
    Reader Exprs
  | 0, acc, e => pure (assemble acc (.one e))
  | k + 1, acc, e => do
    match ← accept (.symbol .comma) with
    | some m => exprsFrom expr k (.more e m :: acc) (← expr)
    | none => return assemble acc (.one e)

def exprs (expr : Reader Expr) : Reader Exprs := do
  let e ← expr
  exprsFrom expr (← bound) [] e

def namesFrom : (fuel : Nat) → (acc : Names) → Reader Names
  | 0, acc => pure acc.reverse
  | k + 1, acc => do
    if ← isNext (.symbol .comma) then namesFrom k ((← advanceName) :: acc) else return acc.reverse

def pathFrom : (fuel : Nat) → (acc : Names) → Reader Names
  | 0, acc => pure acc.reverse
  | k + 1, acc => do
    if ← isNext (.symbol .dot) then pathFrom k ((← advanceName) :: acc) else return acc.reverse

/-- Statements up to the end of a block, gathered in reverse. Nothing follows a return. -/
def statsFrom (stat : Reader Stat) : (fuel : Nat) → (acc : List Stat) → Reader (List Stat)
  | 0, acc => pure acc
  | k + 1, acc => do
    if ← endsBlock true then return acc
    else
      let last ← isNext (.word .kReturn)
      let s ← stat
      if last then return s :: acc else statsFrom stat k (s :: acc)

def block (stat : Reader Stat) : Reader Block :=
  return Block.ofReversed (← statsFrom stat (← bound) [])

/-! ## Tables, functions and calls -/

/-- One field of a table. Its separator and the fields after it are added later. -/
def tableField (expr : Reader Expr) : Reader (Mark → Fields → Fields) := do
  if (← isNext .name) && (← following).kind == .symbol .assign then
    let (m, s) ← name
    let assign ← expect (.symbol .assign)
    let value ← expr
    return .named m s assign value
  else if ← isNext (.symbol .leftBracket) then
    let opening ← advance
    let key ← expr
    let closing ← expect (.symbol .rightBracket)
    let assign ← expect (.symbol .assign)
    let value ← expr
    return .keyed opening key (closing.andThen assign) value
  else
    let value ← expr
    return .item value

def fieldsFrom (expr : Reader Expr) : (fuel : Nat) → (acc : List (Fields → Fields)) → Reader Fields
  | 0, acc => pure (assemble acc .nil)
  | k + 1, acc => do
    if ← isNext (.symbol .rightBrace) then return assemble acc .nil
    else
      let f ← tableField expr
      match ← accept (.symbol .comma) with
      | some m => fieldsFrom expr k (f m :: acc)
      | none =>
        match ← accept (.symbol .semicolon) with
        | some m => fieldsFrom expr k (f m :: acc)
        | none => return assemble (f (← here) :: acc) .nil

def table (expr : Reader Expr) : Reader Table := do
  let opened ← line
  let opening ← expect (.symbol .leftBrace)
  let fields ← fieldsFrom expr (← bound) []
  let closing ← expectClosing (.symbol .rightBrace) (.symbol .leftBrace) opened
  return .mk opening fields closing

/-- Parameters, gathered in reverse; `comma` is the mark of the comma before the next one. -/
def paramsFrom : (fuel : Nat) → (comma : Mark) → (acc : Names) → Reader (Names × Option Mark)
  | 0, _, acc => pure (acc.reverse, none)
  | k + 1, comma, acc => do
    match ← kind with
    | .name =>
      let (m, s) ← name
      let acc := (comma.andThen m, s) :: acc
      match ← accept (.symbol .comma) with
      | some m' => paramsFrom k m' acc
      | none => return (acc.reverse, none)
    | .symbol .dots => return (acc.reverse, some (comma.andThen (← advance)))
    | _ => return ((comma.andThen (← stop .nameOrDotsExpected), []) :: acc).reverse |> (·, none)

/-- A function from its parameters on; `opened` is the line of the definition. The argument of
`block` tells whether the function takes extra arguments. -/
def body (block : Bool → Reader Block) (isMethod : Bool) (opened : Nat) : Reader Body := do
  let opening ← expect (.symbol .leftParen)
  let (params, dots) ←
    if ← isNext (.symbol .rightParen) then pure ([], none) else paramsFrom (← bound) (← here) []
  let inner ← expect (.symbol .rightParen)
  let b ← block dots.isSome
  let last ← line
  let closing ← expectClosing (.word .kEnd) (.word .kFunction) opened
  return .mk opened opening isMethod params dots inner b last closing

def args (expr : Reader Expr) (opened : Nat) : Reader Args := do
  let t ← current
  match t.kind with
  | .symbol .leftParen =>
    let opening ← advance
    if ← isNext (.symbol .rightParen) then
      return .none opening (← expectClosing (.symbol .rightParen) (.symbol .leftParen) opened)
    else
      let values ← exprs expr
      return .list opening values
        (← expectClosing (.symbol .rightParen) (.symbol .leftParen) opened)
  | .symbol .leftBrace => return .table (← table expr)
  | .string => return .string t.literal (← advance)
  | _ => return .missing (← fault .argumentsExpected)

/-! ## Expressions -/

def primary (expr : Reader Expr) : Reader Expr := do
  match ← kind with
  | .name =>
    let (m, s) ← name
    return .name m s
  | .symbol .leftParen =>
    let opened ← line
    let opening ← advance
    let inner ← expr
    return .paren opening inner
      (← expectClosing (.symbol .rightParen) (.symbol .leftParen) opened)
  | _ => return .missing (← fault .unexpectedSymbol)

/-- Fields, indices and calls after an expression that starts on line `opened`, gathered in
reverse. -/
def suffixesFrom (expr : Reader Expr) (opened : Nat) : (fuel : Nat) →
    (acc : List (Suffixes → Suffixes)) → Reader Suffixes
  | 0, acc => pure (assemble acc .nil)
  | k + 1, acc => do
    match ← kind with
    | .symbol .dot =>
      let (m, s) ← advanceName
      suffixesFrom expr opened k (.field m s :: acc)
    | .symbol .leftBracket =>
      let opening ← advance
      let key ← expr
      let closing ← expect (.symbol .rightBracket)
      suffixesFrom expr opened k (.index opening key closing :: acc)
    | .symbol .colon =>
      let (m, s) ← advanceName
      let a ← args expr opened
      suffixesFrom expr opened k (.method m s opened a :: acc)
    | .symbol .leftParen | .string | .symbol .leftBrace =>
      let a ← args expr opened
      suffixesFrom expr opened k (.call opened a :: acc)
    | _ => return assemble acc .nil

def suffixed (expr : Reader Expr) : Reader Expr := do
  let opened ← line
  let e ← primary expr
  match ← suffixesFrom expr opened (← bound) [] with
  | .nil => return e
  | rest => return .suffixed e rest

def simple (isVararg : Bool) (expr : Reader Expr) (block : Bool → Reader Block) : Reader Expr := do
  let t ← current
  match t.kind with
  | .number => return .number t.value (← advance)
  | .string => return .string t.literal (← advance)
  | .word .kNil => return .nil (← advance)
  | .word .kTrue => return .true (← advance)
  | .word .kFalse => return .false (← advance)
  | .symbol .dots =>
    if isVararg then return .vararg (← advance) else return .missing (← fault .varargOutside)
  | .symbol .leftBrace => return .table (← table expr)
  | .word .kFunction =>
    let m ← advance
    return .function m (← body block false (← line))
  | _ => suffixed expr

def operationsFrom (operand : Nat → Reader Expr) (limit : Nat) : (fuel : Nat) →
    (acc : List (Operations → Operations)) → Reader Operations
  | 0, acc => pure (assemble acc .nil)
  | k + 1, acc => do
    match BinaryOp.ofKind? (← kind) with
    | some op =>
      if op.left > limit then
        let opLine ← line
        let m ← advance
        let right ← operand op.right
        operationsFrom operand limit k (.cons op opLine m right :: acc)
      else return assemble acc .nil
    | none => return assemble acc .nil

/-! ## Statements -/

def goto : Reader Goto := do
  let opened ← line
  if ← isNext (.word .kGoto) then
    let (m, s) ← advanceName
    return ⟨opened, some s, m⟩
  else
    return ⟨opened, none, ← advance⟩

def clausesFrom (expr : Reader Expr) (blk : Reader Block) : (fuel : Nat) →
    (acc : List (Clauses → Clauses)) → Reader Clauses
  | 0, acc => pure (assemble acc .nil)
  | k + 1, acc => do
    let opening ← advance
    let test ← expr
    let thenMark ← expect (.word .kThen)
    let (lead, body) ←
      if (← isNext (.word .kGoto)) || (← isNext (.word .kBreak)) then
        let g ← goto
        let m ← semicolons (← bound) (← here)
        let alone ← endsBlock false
        let body ← if alone then pure Block.nil else blk
        pure (some (⟨g, m, alone⟩ : Lead), body)
      else
        pure ((none : Option Lead), ← blk)
    let acc := Clauses.cons opening test thenMark lead body :: acc
    if ← isNext (.word .kElseif) then clausesFrom expr blk k acc
    else return assemble acc .nil

def cond (expr : Reader Expr) (blk : Reader Block) (opened : Nat) : Reader Stat := do
  let clauses ← clausesFrom expr blk (← bound) []
  let elseMark ← accept (.word .kElse)
  let elseBody ← if elseMark.isSome then blk else pure Block.nil
  let closing ← expectClosing (.word .kEnd) (.word .kIf) opened
  return .cond clauses elseMark elseBody closing

def forLoop (expr : Reader Expr) (blk : Reader Block) (opened : Nat) : Reader Stat := do
  let (opening, first) ← advanceName
  match ← kind with
  | .symbol .comma | .word .kIn =>
    let names ← namesFrom (← bound) []
    let inMark ← expect (.word .kIn)
    let valueLine ← line
    let values ← exprs expr
    let doMark ← expect (.word .kDo)
    let b ← blk
    let closing ← expectClosing (.word .kEnd) (.word .kFor) opened
    return .forIn opening first names inMark valueLine values doMark b closing
  | k =>
    let opening ←
      if k == .symbol .assign then pure opening
      else pure (opening.andThen (← stop .assignOrInExpected))
    let assign ← expect (.symbol .assign)
    let start ← expr
    let comma ← expect (.symbol .comma)
    let limit ← expr
    let step ←
      match ← accept (.symbol .comma) with
      | some m => pure (Step.given m (← expr))
      | none => pure Step.unit
    let doMark ← expect (.word .kDo)
    let b ← blk
    let closing ← expectClosing (.word .kEnd) (.word .kFor) opened
    return .forNum opened opening first assign start comma limit step doMark b closing

def functionStat (blk : Bool → Reader Block) (opened : Nat) : Reader Stat := do
  let (opening, first) ← advanceName
  let path ← pathFrom (← bound) []
  let method ← if ← isNext (.symbol .colon) then pure (some (← advanceName)) else pure none
  let b ← body blk method.isSome opened
  return .function opened opening first path method b

def localStatement (expr : Reader Expr) (blk : Bool → Reader Block) : Reader Stat := do
  let m ← advance
  if ← isNext (.word .kFunction) then
    let (m', s) ← advanceName
    return .localFunction (m.andThen m') s (← body blk false (← line))
  else
    let (m', s) ← name
    let names ← namesFrom (← bound) [(m.andThen m', s)]
    match ← accept (.symbol .assign) with
    | some assign => return .localVars names (.given assign (← exprs expr))
    | none => return .localVars names (.none (← here))

def labelStatement (opened : Nat) : Reader Stat := do
  let (m, s) ← advanceName
  let m := m.andThen (← expect (.symbol .doubleColon))
  let m ← semicolons (← bound) m
  return .label opened m s (← endsBlock false)

def returnStat (expr : Reader Expr) : Reader Stat := do
  let m ← advance
  let values ←
    if (← endsBlock true) || (← isNext (.symbol .semicolon)) then pure (Values.none m)
    else pure (Values.given m (← exprs expr))
  match ← accept (.symbol .semicolon) with
  | some m' => return .ret values m'
  | none => return .ret values (← here)

abbrev AssignTail := Targets × Mark × Exprs

/-- After a target: a comma and a further target, from which `deeper` goes on, or the values. -/
def assignTail (expr : Reader Expr) (deeper : Mark → Expr → Reader AssignTail) :
    Reader AssignTail := do
  match ← accept (.symbol .comma) with
  | some comma => deeper comma (← suffixed expr)
  | none =>
    let m ← expect (.symbol .assign)
    return (.nil, m, ← exprs expr)

def assignable (e : Expr) : Reader Mark := do
  if e.isVariable then here else stop .syntaxError

mutual

/-- An expression whose operators bind tighter than `limit`, with `levels` nested levels left. -/
def expr : (levels : Nat) → (isVararg : Bool) → (limit : Nat) → Reader Expr
  | 0, _, _ => return .missing (← fault .tooManyLevels)
  | n + 1, isVararg, limit => do
    let e ←
      match UnaryOp.ofKind? (← kind) with
      | some op =>
        let opLine ← line
        let m ← advance
        pure (Expr.unary op opLine m (← expr n isVararg unaryPriority))
      | none => simple isVararg (expr n isVararg 0) fun v => block (stat n v)
    match ← operationsFrom (fun l => expr n isVararg l) limit (← bound) [] with
    | .nil => return e
    | rest => return .binary e rest

def stat : (levels : Nat) → (isVararg : Bool) → Reader Stat
  | 0, _ => return .missing (← fault .tooManyLevels)
  | n + 1, isVararg => do
    let opened ← line
    match ← kind with
    | .symbol .semicolon => return .empty (← advance)
    | .word .kIf => cond (expr n isVararg 0) (block (stat n isVararg)) opened
    | .word .kWhile =>
      let opening ← advance
      let test ← expr n isVararg 0
      let doMark ← expect (.word .kDo)
      let b ← block (stat n isVararg)
      return .while opening test doMark b
        (← expectClosing (.word .kEnd) (.word .kWhile) opened)
    | .word .kDo =>
      let opening ← advance
      let b ← block (stat n isVararg)
      return .block opening b (← expectClosing (.word .kEnd) (.word .kDo) opened)
    | .word .kFor => forLoop (expr n isVararg 0) (block (stat n isVararg)) opened
    | .word .kRepeat =>
      let opening ← advance
      let b ← block (stat n isVararg)
      let untilMark ← expectClosing (.word .kUntil) (.word .kRepeat) opened
      return .repeat opening b untilMark (← expr n isVararg 0)
    | .word .kFunction => functionStat (fun v => block (stat n v)) opened
    | .word .kLocal => localStatement (expr n isVararg 0) fun v => block (stat n v)
    | .symbol .doubleColon => labelStatement opened
    | .word .kReturn => returnStat (expr n isVararg 0)
    | .word .kBreak | .word .kGoto => return .goto (← goto)
    | _ =>
      let first ← here
      let e ← suffixed (expr n isVararg 0)
      if (← isNext (.symbol .assign)) || (← isNext (.symbol .comma)) then
        let m ← assignable e
        let (rest, assign, values) ← assignTail (expr n isVararg 0) (targets n isVararg)
        return .assign (.cons first e m rest) assign values
      else if e.isCall then return .call e (← here)
      else return .call e (← stop .syntaxError)

/-- The rest of an assignment after its target `e`, which takes one of the `levels` that are left. -/
def targets : (levels : Nat) → (isVararg : Bool) → (comma : Mark) → (e : Expr) → Reader AssignTail
  | 0, _, comma, e => do
    let f ← fault .tooManyLevels
    return (.cons comma e (.stop f) .nil, .stop f, .one (.missing f))
  | n + 1, isVararg, comma, e => do
    let m ← assignable e
    let (rest, assign, values) ← assignTail (expr n isVararg 0) (targets n isVararg)
    return (.cons comma e m rest, assign, values)

end

def chunk : Reader Chunk := do
  let opening ←
    match ← kind with
    | .fault f => stop (.scan f)
    | _ => here
  let body ← block (stat maxLevels true)
  let closing ← if ← isNext .eof then here else stop (.expected .eof)
  return ⟨opening, body, closing⟩

end Reader

def readChunk (source : Bytes) : Chunk :=
  let tokens := scan source
  (Reader.chunk.run ⟨tokens, 1, tokens.length⟩).1

end RegisterCompiler
