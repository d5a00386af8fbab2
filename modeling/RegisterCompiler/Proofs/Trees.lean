import RegisterCompiler.Proofs.Loops

/-!
# Code for trees, side by side

* `Expr.Proper`, `Stat.Proper`, … : the trees that reading gives. A statement that is an expression is
  a call, what is assigned to is a variable, and no name is hidden;
* `Expr.halt`, `Stat.halt`, … : the tree with a fault in front of the body of each loop over more than
  three values;
* `tracks_expr`, `tracks_stat`, … : code for a tree and for the halted tree, by recursion on the tree. A
  run for the tree breaks off only where the run for the halted tree stops with its fault. Both runs may
  find names in other ways as long as they find the same.
-/

namespace RegisterCompiler

open Gen

def Exprs.length : Exprs → Nat
  | .one _ => 1
  | .more _ _ rest => rest.length + 1

/-! ## Proper trees -/

/-- If reading got past the mark, the name before it is not hidden. -/
def Mark.Names (m : Mark) (name : Bytes) : Prop :=
  ∀ n, m = .line n → ¬ IsHidden name

mutual

/-- The expression can stand in the tree of a source. -/
def Expr.Proper : Expr → Prop
  | .missing _ | .nil _ | .true _ | .false _ | .number .. | .string .. | .vararg _ => True
  | .function _ b => b.Proper
  | .table t => t.Proper
  | .name m name => m.Names name
  | .paren _ e _ => e.Proper
  | .suffixed e rest => e.Proper ∧ rest.Proper
  | .unary _ _ _ e => e.Proper
  | .binary e rest => e.Proper ∧ rest.Proper

def Suffixes.Proper : Suffixes → Prop
  | .nil => True
  | .field _ _ rest => rest.Proper
  | .index _ key _ rest => key.Proper ∧ rest.Proper
  | .call _ as rest => as.Proper ∧ rest.Proper
  | .method _ _ _ as rest => as.Proper ∧ rest.Proper

/-- `Proper` for operators with their right operands. -/
def Operations.Proper : Operations → Prop
  | .nil => True
  | .cons _ _ _ right rest => right.Proper ∧ rest.Proper

def Exprs.Proper : Exprs → Prop
  | .one e => e.Proper
  | .more e _ rest => e.Proper ∧ rest.Proper

def Args.Proper : Args → Prop
  | .missing _ | .none .. | .string .. => True
  | .list _ values _ => values.Proper
  | .table t => t.Proper

def Table.Proper : Table → Prop
  | .mk _ fs _ => fs.Proper

def Fields.Proper : Fields → Prop
  | .nil => True
  | .item value _ rest => value.Proper ∧ rest.Proper
  | .named _ _ _ value _ rest => value.Proper ∧ rest.Proper
  | .keyed _ key _ value _ rest => key.Proper ∧ value.Proper ∧ rest.Proper

def Body.Proper : Body → Prop
  | .mk _ _ _ _ _ _ b _ _ => b.Proper

/-- The statement can stand in the tree of a source. -/
def Stat.Proper : Stat → Prop
  | .missing _ | .empty _ | .label .. | .goto _ => True
  | .block _ b _ => b.Proper
  | .cond cs _ b _ => cs.Proper ∧ b.Proper
  | .while _ test _ b _ => test.Proper ∧ b.Proper
  | .repeat _ b _ test => b.Proper ∧ test.Proper
  | .forNum _ _ _ _ first _ limit s _ b _ => first.Proper ∧ limit.Proper ∧ s.Proper ∧ b.Proper
  | .forIn _ _ _ _ _ values _ b _ => values.Proper ∧ b.Proper
  | .function _ m name _ _ b => m.Names name ∧ b.Proper
  | .localFunction _ _ b => b.Proper
  | .localVars _ vs => vs.Proper
  | .ret vs _ => vs.Proper
  | .call e m => e.Proper ∧ ∀ n, m = .line n → e.isCall
  | .assign ts _ vs => ts.Proper ∧ vs.Proper

def Values.Proper : Values → Prop
  | .none _ => True
  | .given _ es => es.Proper

def Step.Proper : Step → Prop
  | .unit => True
  | .given _ e => e.Proper

/-- `Proper` for the clauses of a conditional statement. -/
def Clauses.Proper : Clauses → Prop
  | .nil => True
  | .cons _ test _ _ b rest => test.Proper ∧ b.Proper ∧ rest.Proper

def Targets.Proper : Targets → Prop
  | .nil => True
  | .cons _ e m rest => e.Proper ∧ (∀ n, m = .line n → e.isVariable) ∧ rest.Proper

def Block.Proper : Block → Prop
  | .nil => True
  | .cons s rest => s.Proper ∧ rest.Proper

end

/-! ## Halted trees -/

section Halt
variable (f : SyntaxFault)

mutual

/-- The expression, in which reading stops with `f` wherever a loop goes over more than three
values. -/
def Expr.halt : Expr → Expr
  | .missing g => .missing g
  | .nil m => .nil m
  | .true m => .true m
  | .false m => .false m
  | .number x m => .number x m
  | .string s m => .string s m
  | .vararg m => .vararg m
  | .function m b => .function m b.halt
  | .table t => .table t.halt
  | .name m name => .name m name
  | .paren opening e closing => .paren opening e.halt closing
  | .suffixed e rest => .suffixed e.halt rest.halt
  | .unary op line m e => .unary op line m e.halt
  | .binary e rest => .binary e.halt rest.halt

def Suffixes.halt : Suffixes → Suffixes
  | .nil => .nil
  | .field m name rest => .field m name rest.halt
  | .index opening key closing rest => .index opening key.halt closing rest.halt
  | .call line as rest => .call line as.halt rest.halt
  | .method m name line as rest => .method m name line as.halt rest.halt

/-- `halt` on operators with their right operands. -/
def Operations.halt : Operations → Operations
  | .nil => .nil
  | .cons op line m right rest => .cons op line m right.halt rest.halt

def Exprs.halt : Exprs → Exprs
  | .one e => .one e.halt
  | .more e comma rest => .more e.halt comma rest.halt

def Args.halt : Args → Args
  | .missing g => .missing g
  | .none opening closing => .none opening closing
  | .list opening values closing => .list opening values.halt closing
  | .table t => .table t.halt
  | .string s m => .string s m

def Table.halt : Table → Table
  | .mk opening fs closing => .mk opening fs.halt closing

def Fields.halt : Fields → Fields
  | .nil => .nil
  | .item value separator rest => .item value.halt separator rest.halt
  | .named m name assign value separator rest => .named m name assign value.halt separator rest.halt
  | .keyed opening key assign value separator rest =>
    .keyed opening key.halt assign value.halt separator rest.halt

def Body.halt : Body → Body
  | .mk line opening isMethod params dots inner b last closing =>
    .mk line opening isMethod params dots inner b.halt last closing

/-- The statement, in which reading stops with `f` wherever a loop goes over more than three values. -/
def Stat.halt : Stat → Stat
  | .missing g => .missing g
  | .empty m => .empty m
  | .block opening b closing => .block opening b.halt closing
  | .cond cs elseMark elseBody closing => .cond cs.halt elseMark elseBody.halt closing
  | .while opening test doMark b closing => .while opening test.halt doMark b.halt closing
  | .repeat opening b untilMark test => .repeat opening b.halt untilMark test.halt
  | .forNum line opening name assign first comma limit s doMark b closing =>
    .forNum line opening name assign first.halt comma limit.halt s.halt doMark b.halt closing
  | .forIn opening name names inMark line values doMark b closing =>
    .forIn opening name names inMark line values.halt
      (if values.length ≤ 3 then doMark else doMark.halt f) b.halt closing
  | .function line opening name path method b => .function line opening name path method b.halt
  | .localFunction opening name b => .localFunction opening name b.halt
  | .localVars names vs => .localVars names vs.halt
  | .label line m name isLast => .label line m name isLast
  | .goto g => .goto g
  | .ret vs m => .ret vs.halt m
  | .call e m => .call e.halt m
  | .assign ts assign vs => .assign ts.halt assign vs.halt

def Values.halt : Values → Values
  | .none m => .none m
  | .given m es => .given m es.halt

def Step.halt : Step → Step
  | .unit => .unit
  | .given comma e => .given comma e.halt

/-- `halt` on the clauses of a conditional statement. -/
def Clauses.halt : Clauses → Clauses
  | .nil => .nil
  | .cons opening test thenMark lead b rest => .cons opening test.halt thenMark lead b.halt rest.halt

def Targets.halt : Targets → Targets
  | .nil => .nil
  | .cons comma e m rest => .cons comma e.halt m rest.halt

def Block.halt : Block → Block
  | .nil => .nil
  | .cons s rest => .cons s.halt rest.halt

end

def Chunk.halt (c : Chunk) : Chunk :=
  { c with body := c.body.halt f }

end Halt

variable {rest : Suffixes} {x y z : Operand}

/-! ## What kind of value an expression has -/

/-- A call gives a pending call, and a variable something that can be assigned to. -/
def Expr.Gives (e : Expr) (x : Operand) : Prop :=
  (e.isCall → x.kind = .call) ∧ (e.isVariable → x.isVariable)

/-- The same for what follows an expression, the value of which is `x`. -/
def Suffixes.Gives (rest : Suffixes) (x y : Operand) : Prop :=
  (rest = .nil → y = x) ∧ (rest.endInCall → y.kind = .call) ∧ (rest.endInField → y.isVariable)

theorem Suffixes.Gives.field {m : Mark} {name : Bytes}
    (hy : y.isVariable) (h : rest.Gives y z) : (Suffixes.field m name rest).Gives x z := by
  cases rest <;> simp_all [Suffixes.Gives, Suffixes.endInCall, Suffixes.endInField]

theorem Suffixes.Gives.index {opening closing : Mark} {key : Expr}
    (hy : y.isVariable) (h : rest.Gives y z) : (Suffixes.index opening key closing rest).Gives x z := by
  cases rest <;> simp_all [Suffixes.Gives, Suffixes.endInCall, Suffixes.endInField]

theorem Suffixes.Gives.call {line : Nat} {as : Args}
    (hy : y.kind = .call) (h : rest.Gives y z) : (Suffixes.call line as rest).Gives x z := by
  cases rest <;> simp_all [Suffixes.Gives, Suffixes.endInCall, Suffixes.endInField]

theorem Suffixes.Gives.method {m : Mark} {name : Bytes} {line : Nat}
    {as : Args} (hy : y.kind = .call) (h : rest.Gives y z) : (Suffixes.method m name line as rest).Gives x z := by
  cases rest <;> simp_all [Suffixes.Gives, Suffixes.endInCall, Suffixes.endInField]

theorem Expr.Gives.of_not {e : Expr} (hcall : e.isCall = Bool.false) (hvar : e.isVariable = Bool.false) : e.Gives x := by
  simp [Expr.Gives, hcall, hvar]

theorem TracksSuffixes.mono {w : Runs} {r r' : Suffixes} {R R' : Operand → Operand → Prop}
    (h : TracksSuffixes w r r' R) (hR : ∀ e e', R e e' → R' e e') : TracksSuffixes w r r' R' :=
  fun s0 s H e ts fs hy => (h s0 s H e ts fs hy).mono fun e' _ he => ⟨he.1, hR e e' he.2⟩

/-! ## The trees -/

section Trees
variable (w : Runs)

mutual

theorem tracks_expr : (e : Expr) → e.Proper → TracksExpr w e (e.halt w.fault) e.Gives
  | .missing _, _ => fun s H _ _ => by
    exact tracks_stopAt
  | .nil _, _ | .true _, _ | .false _, _ | .number .., _ => fun s H hok hbase => by
    exact tracks_literal hok hbase (by simp) (.of_not rfl rfl)
  | .string .., _ => fun s H hok hbase => by
    exact (tracks_string hok hbase).mono fun _ _ h => ⟨h.1, .of_not rfl rfl⟩
  | .vararg _, _ => TracksExpr.vararg.mono fun _ _ => .of_not rfl rfl
  | .function _ b, h => (TracksExpr.function (tracks_body b h)).mono fun _ _ => .of_not rfl rfl
  | .table t, h => fun s H hok hbase => by
    exact (tracks_table t h s H hok hbase).mono fun _ _ h => ⟨h.1, .of_not rfl rfl⟩
  | .name .., h => (TracksExpr.name h).mono fun _ hx => ⟨by simp [Expr.isCall], fun _ => hx⟩
  | .paren _ e _, h => (TracksExpr.paren (tracks_expr e h)).mono fun _ _ => .of_not rfl rfl
  | .suffixed e rest, h => (tracks_expr e h.1).suffixed (tracks_suffixes rest h.2) fun _ _ hR => ⟨hR.2.1, hR.2.2⟩
  | .unary _ _ _ e, h => (TracksExpr.unary (tracks_expr e h)).mono fun _ _ => .of_not rfl rfl
  | .binary e rest, h => ((tracks_expr e h.1).binary (tracks_operations rest h.2)).mono fun _ _ => .of_not rfl rfl

theorem tracks_suffixes : (rest : Suffixes) → rest.Proper → TracksSuffixes w rest (rest.halt w.fault) rest.Gives
  | .nil, _ => TracksSuffixes.nil.mono (by simp [Suffixes.Gives, Suffixes.endInCall, Suffixes.endInField])
  | .field _ _ rest, h => (TracksSuffixes.field (tracks_suffixes rest h)).mono fun _ _ h => h.elim fun _ h => h.2.field h.1
  | .index _ key _ rest, h => (TracksSuffixes.index (tracks_expr key h.1) (tracks_suffixes rest h.2)).mono
    fun _ _ h => h.elim fun _ h => h.2.index h.1
  | .call _ as rest, h => (TracksSuffixes.call (tracks_args as h.1) (tracks_suffixes rest h.2)).mono
    fun _ _ h => h.elim fun _ h => h.2.call h.1
  | .method _ _ _ as rest, h => (TracksSuffixes.method (tracks_args as h.1) (tracks_suffixes rest h.2)).mono
    fun _ _ h => h.elim fun _ h => h.2.method h.1

theorem tracks_operations : (rest : Operations) → rest.Proper → TracksOperations w rest (rest.halt w.fault)
  | .nil, _ => .nil
  | .cons _ _ _ right rest, h => .cons (tracks_expr right h.1) (tracks_operations rest h.2)

theorem tracks_exprs : (es : Exprs) → es.Proper → TracksExprs w es (es.halt w.fault) es.length
  | .one e, h => .one (tracks_expr e h)
  | .more e _ rest, h => .more (tracks_expr e h.1) (tracks_exprs rest h.2)

theorem tracks_args : (as : Args) → as.Proper → TracksArgs w as (as.halt w.fault)
  | .missing _, _ => fun s H _ _ => by
    exact tracks_stopAt
  | .none .., _ => .none
  | .list _ values _, h => .list (tracks_exprs values h)
  | .table t, h => fun s H hok hbase => by
    exact (tracks_table t h s H hok hbase).argsOf
  | .string .., _ => fun s H hok hbase => by
    exact (tracks_string hok hbase).argsOf

theorem tracks_table : (t : Table) → t.Proper → TracksTable w t (t.halt w.fault)
  | .mk _ fs _, h => .mk (tracks_fields fs h)

theorem tracks_fields : (fs : Fields) → fs.Proper → TracksFields w fs (fs.halt w.fault)
  | .nil, _ => .nil
  | .item value _ rest, h => .item (tracks_expr value h.1) (tracks_fields rest h.2)
  | .named _ _ _ value _ rest, h => .named (tracks_expr value h.1) (tracks_fields rest h.2)
  | .keyed _ key _ value _ rest, h =>
    .keyed (tracks_expr key h.1) (tracks_expr value h.2.1) (tracks_fields rest h.2.2)

theorem tracks_body : (b : Body) → b.Proper → TracksBody w b (b.halt w.fault)
  | .mk _ _ _ _ _ _ b _ _, h => .of_block (tracks_block b h)

theorem tracks_stat : (s : Stat) → s.Proper → TracksStat w s (s.halt w.fault)
  | .missing _, _ => fun s H ws _ _ => by
    exact tracks_stopAt
  | .empty _, _ => .empty
  | .block _ b _, h => .block (tracks_block b h)
  | .cond cs _ elseBody _, h => .cond (tracks_clauses cs h.1) (tracks_block elseBody h.2)
  | .while _ test _ b _, h => .while (tracks_expr test h.1) (tracks_block b h.2)
  | .repeat _ b _ test, h => .repeat (tracks_expr test h.2) (tracks_block b h.1)
  | .forNum _ _ _ _ first _ limit s _ b _, h =>
    .forNum (tracks_expr first h.1) (tracks_expr limit h.2.1) (tracks_step s h.2.2.1) (tracks_block b h.2.2.2)
  | .forIn _ _ _ _ _ values _ b _, h => .forIn (tracks_exprs values h.1) (tracks_block b h.2)
  | .function _ _ _ _ _ b, h => .function (tracks_body b h.2) h.1
  | .localFunction _ _ b, h => .localFunction (tracks_body b h)
  | .localVars _ vs, h => .localVars (tracks_values vs h)
  | .label .., _ => .label
  | .goto _, _ => .goto
  | .ret vs _, h => .ret (tracks_values vs h)
  | .call e _, h => .call (tracks_expr e h.1) fun n _ hn hx => hx.1 (h.2 n hn)
  | .assign ts _ vs, h => .assign (tracks_targets ts h.1) (tracks_exprs vs h.2)

theorem tracks_values : (vs : Values) → vs.Proper → TracksValues w vs (vs.halt w.fault)
  | .none _, _ => .none
  | .given _ es, h => .given (tracks_exprs es h)

theorem tracks_step : (s : Step) → s.Proper → TracksStep w s (s.halt w.fault)
  | .unit, _ => .unit
  | .given _ e, h => .given (tracks_expr e h)

theorem tracks_clauses : (cs : Clauses) → cs.Proper → TracksClauses w cs (cs.halt w.fault)
  | .nil, _ => .nil
  | .cons _ test _ _ b rest, h =>
    .cons (tracks_expr test h.1) (tracks_block b h.2.1) (tracks_clauses rest h.2.2)
      (by cases rest <;> simp [Clauses.halt])

theorem tracks_targets : (ts : Targets) → ts.Proper → TracksTargets w ts (ts.halt w.fault)
  | .nil, _ => .nil
  | .cons _ e _ rest, h =>
    .cons (tracks_expr e h.1) (tracks_targets rest h.2.2) fun n _ hn hx => hx.2 (h.2.1 n hn)

theorem tracks_block : (b : Block) → b.Proper → TracksBlock w b (b.halt w.fault)
  | .nil, _ => .nil
  | .cons s rest, h => .cons (tracks_stat s h.1) (tracks_block rest h.2)

end

end Trees

end RegisterCompiler
