import RegisterCompiler.Source.Error
import RegisterCompiler.Source.Operator

/-!
# Source trees

A tree holds a source as it was read, up to its end or to the first fault. A `Mark` stands wherever tokens
were read, and says on which line the last of them was, or which fault stopped reading there. What comes
after a fault in a tree is of no account.

Code is generated in the order of reading. So the line of a mark is the line of the code that follows it,
and of a fault and a limit that the code before it exceeds, the one that comes first is reported.
-/

namespace RegisterCompiler

inductive Mark where
  | line (n : Nat)
  | stop (fault : SyntaxFault)

abbrev Names := List (Mark × Bytes)

/-- A jump out of order: to a label, or to the end of the loop if there is no `label`. -/
structure Goto where
  line : Nat
  label : Option Bytes
  mark : Mark

/-- A jump that comes first in the block of a condition, and the semicolons after it. -/
structure Lead where
  goto : Goto
  semicolons : Mark
  alone : Bool

mutual

inductive Expr where
  | missing (fault : SyntaxFault)
  | nil (mark : Mark)
  | true (mark : Mark)
  | false (mark : Mark)
  | number (value : Number) (mark : Mark)
  | string (text : Bytes) (mark : Mark)
  | vararg (mark : Mark)
  | function (mark : Mark) (body : Body)
  | table (table : Table)
  | name (mark : Mark) (name : Bytes)
  | paren (opening : Mark) (inner : Expr) (closing : Mark)
  | suffixed (first : Expr) (rest : Suffixes)
  | unary (op : UnaryOp) (line : Nat) (mark : Mark) (operand : Expr)
  /-- An expression with operators after it, each of which takes all before it as its left
  operand. -/
  | binary (first : Expr) (rest : Operations)

/-- What follows an expression; `line` is where the whole expression starts. -/
inductive Suffixes where
  | nil
  | field (mark : Mark) (name : Bytes) (rest : Suffixes)
  | index (opening : Mark) (key : Expr) (closing : Mark) (rest : Suffixes)
  | call (line : Nat) (args : Args) (rest : Suffixes)
  | method (mark : Mark) (name : Bytes) (line : Nat) (args : Args) (rest : Suffixes)

inductive Operations where
  | nil
  | cons (op : BinaryOp) (line : Nat) (mark : Mark) (right : Expr) (rest : Operations)

/-- One expression or more, with the marks of the commas between them. -/
inductive Exprs where
  | one (e : Expr)
  | more (e : Expr) (comma : Mark) (rest : Exprs)

inductive Args where
  | missing (fault : SyntaxFault)
  | none (opening closing : Mark)
  | list (opening : Mark) (values : Exprs) (closing : Mark)
  | table (table : Table)
  | string (text : Bytes) (mark : Mark)

inductive Table where
  | mk (opening : Mark) (fields : Fields) (closing : Mark)

/-- The fields of a table constructor, each with the mark of the separator after it. -/
inductive Fields where
  | nil
  | item (value : Expr) (separator : Mark) (rest : Fields)
  /-- `name = value`. -/
  | named (mark : Mark) (name : Bytes) (assign : Mark) (value : Expr) (separator : Mark)
    (rest : Fields)
  /-- `[key] = value`. -/
  | keyed (opening : Mark) (key : Expr) (assign : Mark) (value : Expr) (separator : Mark)
    (rest : Fields)

inductive Body where
  /-- `line` is the line of the definition, `last` that of its end; `dots` is the mark of the
  parameter that takes extra arguments, `inner` that of the parenthesis after the parameters. -/
  | mk (line : Nat) (opening : Mark) (isMethod : Bool) (params : Names) (dots : Option Mark)
    (inner : Mark) (block : Block) (last : Nat) (closing : Mark)

inductive Stat where
  | missing (fault : SyntaxFault)
  | empty (mark : Mark)
  | block (opening : Mark) (body : Block) (closing : Mark)
  | cond (clauses : Clauses) (elseMark : Option Mark) (elseBody : Block) (closing : Mark)
  | while (opening : Mark) (test : Expr) (doMark : Mark) (body : Block) (closing : Mark)
  | repeat (opening : Mark) (body : Block) (untilMark : Mark) (test : Expr)
  | forNum (line : Nat) (opening : Mark) (name : Bytes) (assign : Mark) (first : Expr)
    (comma : Mark) (limit : Expr) (step : Step) (doMark : Mark) (body : Block) (closing : Mark)
  | forIn (opening : Mark) (name : Bytes) (names : Names) (inMark : Mark) (line : Nat)
    (values : Exprs) (doMark : Mark) (body : Block) (closing : Mark)
  | function (line : Nat) (opening : Mark) (name : Bytes) (path : Names)
    (method : Option (Mark × Bytes)) (body : Body)
  | localFunction (opening : Mark) (name : Bytes) (body : Body)
  | localVars (names : Names) (values : Values)
  | label (line : Nat) (mark : Mark) (name : Bytes) (isLast : Bool)
  | goto (goto : Goto)
  | ret (values : Values) (mark : Mark)
  /-- A call as a statement; the mark is a fault for any other expression. -/
  | call (e : Expr) (mark : Mark)
  | assign (targets : Targets) (assign : Mark) (values : Exprs)

/-- Values that may be left out; `mark` is the mark of the tokens before them. -/
inductive Values where
  | none (mark : Mark)
  | given (mark : Mark) (values : Exprs)

inductive Step where
  | unit
  | given (comma : Mark) (step : Expr)

/-- The conditions and blocks of a conditional statement. -/
inductive Clauses where
  | nil
  | cons (opening : Mark) (test : Expr) (thenMark : Mark) (lead : Option Lead) (body : Block)
    (rest : Clauses)

/-- The variables of an assignment: each with the mark of the comma before it, and after it a mark
that is a fault if the expression is no variable or the statement nests too deeply. -/
inductive Targets where
  | nil
  | cons (comma : Mark) (e : Expr) (mark : Mark) (rest : Targets)

inductive Block where
  | nil
  | cons (s : Stat) (rest : Block)

end

def Block.ofReversed (stats : List Stat) : Block :=
  stats.foldl (fun b s => .cons s b) .nil

namespace Suffixes

def endInCall : Suffixes → Bool
  | .nil => Bool.false
  | .call _ _ .nil | .method _ _ _ _ .nil => Bool.true
  | .field _ _ rest | .index _ _ _ rest | .call _ _ rest | .method _ _ _ _ rest => rest.endInCall

def endInField : Suffixes → Bool
  | .nil => Bool.false
  | .field _ _ .nil | .index _ _ _ .nil => Bool.true
  | .field _ _ rest | .index _ _ _ rest | .call _ _ rest | .method _ _ _ _ rest => rest.endInField

end Suffixes

def Expr.isCall : Expr → Bool
  | .suffixed _ rest => rest.endInCall
  | _ => Bool.false

def Expr.isVariable : Expr → Bool
  | .name .. => Bool.true
  | .suffixed _ rest => rest.endInField
  | _ => Bool.false

structure Chunk where
  opening : Mark
  body : Block
  closing : Mark

end RegisterCompiler
