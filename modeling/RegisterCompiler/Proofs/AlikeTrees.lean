import RegisterCompiler.Proofs.AlikeValues

/-!
# Code for trees does not look at lines

* `Expr.mapLines`, `Stat.mapLines`, … : a tree with its lines changed. Of a fault only its line is
  kept;
* `alike_expr`, `alike_stat`, … : code for a tree agrees with code for the tree with other lines, by
  recursion on the tree;
* `Gen.chunk_agree_mapLines` : the same for whole sources.
-/

namespace RegisterCompiler

/-! ## Trees with other lines -/

/-- Some fault, on the line of `f` changed by `g`. -/
def SyntaxFault.mapLine (g : Nat → Nat) (f : SyntaxFault) : SyntaxFault := ⟨.syntaxError, g f.line, []⟩

def Mark.mapLine (g : Nat → Nat) : Mark → Mark
  | .line n => .line (g n)
  | .stop f => .stop (f.mapLine g)

def mapNamed (g : Nat → Nat) (n : Mark × Bytes) : Mark × Bytes :=
  (n.1.mapLine g, n.2)

def Names.mapLines (g : Nat → Nat) (ns : Names) : Names :=
  ns.map (mapNamed g)

def Goto.mapLines (g : Nat → Nat) (j : Goto) : Goto :=
  ⟨g j.line, j.label, j.mark.mapLine g⟩

def Lead.mapLines (g : Nat → Nat) (l : Lead) : Lead :=
  ⟨l.goto.mapLines g, l.semicolons.mapLine g, l.alone⟩

mutual

def Expr.mapLines (g : Nat → Nat) : Expr → Expr
  | .missing f => .missing (f.mapLine g)
  | .nil m => .nil (m.mapLine g)
  | .true m => .true (m.mapLine g)
  | .false m => .false (m.mapLine g)
  | .number x m => .number x (m.mapLine g)
  | .string s m => .string s (m.mapLine g)
  | .vararg m => .vararg (m.mapLine g)
  | .function m b => .function (m.mapLine g) (b.mapLines g)
  | .table t => .table (t.mapLines g)
  | .name m name => .name (m.mapLine g) name
  | .paren opening e closing => .paren (opening.mapLine g) (e.mapLines g) (closing.mapLine g)
  | .suffixed e rest => .suffixed (e.mapLines g) (rest.mapLines g)
  | .unary op line m e => .unary op (g line) (m.mapLine g) (e.mapLines g)
  | .binary e rest => .binary (e.mapLines g) (rest.mapLines g)

def Suffixes.mapLines (g : Nat → Nat) : Suffixes → Suffixes
  | .nil => .nil
  | .field m name rest => .field (m.mapLine g) name (rest.mapLines g)
  | .index opening key closing rest =>
    .index (opening.mapLine g) (key.mapLines g) (closing.mapLine g) (rest.mapLines g)
  | .call line as rest => .call (g line) (as.mapLines g) (rest.mapLines g)
  | .method m name line as rest => .method (m.mapLine g) name (g line) (as.mapLines g) (rest.mapLines g)

def Operations.mapLines (g : Nat → Nat) : Operations → Operations
  | .nil => .nil
  | .cons op line m right rest => .cons op (g line) (m.mapLine g) (right.mapLines g) (rest.mapLines g)

def Exprs.mapLines (g : Nat → Nat) : Exprs → Exprs
  | .one e => .one (e.mapLines g)
  | .more e comma rest => .more (e.mapLines g) (comma.mapLine g) (rest.mapLines g)

def Args.mapLines (g : Nat → Nat) : Args → Args
  | .missing f => .missing (f.mapLine g)
  | .none opening closing => .none (opening.mapLine g) (closing.mapLine g)
  | .list opening values closing => .list (opening.mapLine g) (values.mapLines g) (closing.mapLine g)
  | .table t => .table (t.mapLines g)
  | .string s m => .string s (m.mapLine g)

def Table.mapLines (g : Nat → Nat) : Table → Table
  | .mk opening fs closing => .mk (opening.mapLine g) (fs.mapLines g) (closing.mapLine g)

def Fields.mapLines (g : Nat → Nat) : Fields → Fields
  | .nil => .nil
  | .item value separator rest => .item (value.mapLines g) (separator.mapLine g) (rest.mapLines g)
  | .named m name assign value separator rest =>
    .named (m.mapLine g) name (assign.mapLine g) (value.mapLines g) (separator.mapLine g) (rest.mapLines g)
  | .keyed opening key assign value separator rest =>
    .keyed (opening.mapLine g) (key.mapLines g) (assign.mapLine g) (value.mapLines g) (separator.mapLine g)
      (rest.mapLines g)

def Body.mapLines (g : Nat → Nat) : Body → Body
  | .mk line opening isMethod params dots inner b last closing =>
    .mk (g line) (opening.mapLine g) isMethod (Names.mapLines g params) (dots.map (Mark.mapLine g))
      (inner.mapLine g) (b.mapLines g) (g last) (closing.mapLine g)

def Stat.mapLines (g : Nat → Nat) : Stat → Stat
  | .missing f => .missing (f.mapLine g)
  | .empty m => .empty (m.mapLine g)
  | .block opening b closing => .block (opening.mapLine g) (b.mapLines g) (closing.mapLine g)
  | .cond cs elseMark elseBody closing =>
    .cond (cs.mapLines g) (elseMark.map (Mark.mapLine g)) (elseBody.mapLines g) (closing.mapLine g)
  | .while opening test doMark b closing =>
    .while (opening.mapLine g) (test.mapLines g) (doMark.mapLine g) (b.mapLines g) (closing.mapLine g)
  | .repeat opening b untilMark test =>
    .repeat (opening.mapLine g) (b.mapLines g) (untilMark.mapLine g) (test.mapLines g)
  | .forNum line opening name assign first comma limit s doMark b closing =>
    .forNum (g line) (opening.mapLine g) name (assign.mapLine g) (first.mapLines g) (comma.mapLine g)
      (limit.mapLines g) (s.mapLines g) (doMark.mapLine g) (b.mapLines g) (closing.mapLine g)
  | .forIn opening name names inMark line values doMark b closing =>
    .forIn (opening.mapLine g) name (Names.mapLines g names) (inMark.mapLine g) (g line) (values.mapLines g)
      (doMark.mapLine g) (b.mapLines g) (closing.mapLine g)
  | .function line opening name path method b =>
    .function (g line) (opening.mapLine g) name (Names.mapLines g path)
      (method.map (mapNamed g)) (b.mapLines g)
  | .localFunction opening name b => .localFunction (opening.mapLine g) name (b.mapLines g)
  | .localVars names vs => .localVars (Names.mapLines g names) (vs.mapLines g)
  | .label line m name isLast => .label (g line) (m.mapLine g) name isLast
  | .goto j => .goto (j.mapLines g)
  | .ret vs m => .ret (vs.mapLines g) (m.mapLine g)
  | .call e m => .call (e.mapLines g) (m.mapLine g)
  | .assign ts assign vs => .assign (ts.mapLines g) (assign.mapLine g) (vs.mapLines g)

def Values.mapLines (g : Nat → Nat) : Values → Values
  | .none m => .none (m.mapLine g)
  | .given m es => .given (m.mapLine g) (es.mapLines g)

def Step.mapLines (g : Nat → Nat) : Step → Step
  | .unit => .unit
  | .given comma e => .given (comma.mapLine g) (e.mapLines g)

def Clauses.mapLines (g : Nat → Nat) : Clauses → Clauses
  | .nil => .nil
  | .cons opening test thenMark lead b rest =>
    .cons (opening.mapLine g) (test.mapLines g) (thenMark.mapLine g) (lead.map (Lead.mapLines g))
      (b.mapLines g) (rest.mapLines g)

def Targets.mapLines (g : Nat → Nat) : Targets → Targets
  | .nil => .nil
  | .cons comma e m rest => .cons (comma.mapLine g) (e.mapLines g) (m.mapLine g) (rest.mapLines g)

def Block.mapLines (g : Nat → Nat) : Block → Block
  | .nil => .nil
  | .cons s rest => .cons (s.mapLines g) (rest.mapLines g)

end

def Chunk.mapLines (g : Nat → Nat) (c : Chunk) : Chunk :=
  ⟨c.opening.mapLine g, c.body.mapLines g, c.closing.mapLine g⟩

/-- A change of lines that `L` relates to the lines as they were. -/
structure LineMap (L : View) where
  map : Nat → Nat
  related (n : Nat) : L n (map n)
  first : L 1 1
  fresh (n : Nat) : L.table n #[] ∅

namespace Gen

variable {L : View} (w : LineMap L)

/-! ## Names and jumps -/

@[simp] theorem alike_mark (m : Mark) : Alike L (mark m) (mark (m.mapLine w.map)) := by
  cases m with
  | line n => exact alike_onLine (w.related n)
  | stop f => exact ⟨fun _ _ _ => .error (w.related f.line)⟩

@[simp] theorem length_mapLines (ns : Names) : (Names.mapLines w.map ns).length = ns.length :=
  List.length_map _

@[simp] theorem alike_newLocals (ns : Names) : Alike L (newLocals ns) (newLocals (Names.mapLines w.map ns)) := by
  induction ns with
  | nil => exact alike_pure ()
  | cons n rest ih => exact .bind (alike_mark w _) fun _ => .bind (alike_newLocal _) fun _ => ih

@[simp] theorem alike_fieldOf (e : Operand) (m : Mark) (name : Bytes) :
    Alike L (fieldOf e m name) (fieldOf e (m.mapLine w.map) name) := by
  refine .bind (alike_toAnyRegisterOrUpvalue e) fun e => ?_
  simp

@[simp] theorem alike_path (e : Operand) (ns : Names) : Alike L (path e ns) (path e (Names.mapLines w.map ns)) := by
  induction ns generalizing e with
  | nil => exact alike_pure e
  | cons n rest ih => exact .bind (alike_fieldOf w ..) fun e => ih e

@[simp] theorem alike_goto (g : Goto) (l : JumpList) : Alike L (goto g l) (goto (g.mapLines w.map) l) :=
  .bind (alike_mark w _) fun _ => alike_addGoto ..

/-! ## Trees -/

theorem Alike.shared {α β : Type} {k k' : α → Gen β} {p : Prop} (h : (∀ a, Alike L (k a) (k' a)) → p)
    (hk : ∀ a, Alike L (k a) (k' a)) : p :=
  h hk

mutual

theorem alike_expr : (e : Expr) → Alike L (expr namedVariable e) (expr namedVariable (e.mapLines w.map))
  | .missing f => alike_stopAt (w.related _)
  | .nil m | .true m | .false m | .number x m | .string s m | .vararg m => by
    simp only [expr, Expr.mapLines]
    simp
  | .function m b => .bind (alike_mark w m) fun _ => alike_body b
  | .table t => alike_table t
  | .name m name => .bind (alike_mark w m) fun _ => alike_namedVariable name
  | .paren opening e closing => .bind (alike_mark w opening) fun _ => .bind (alike_expr e) fun e => by simp
  | .suffixed e rest => .bind (alike_expr e) fun e => alike_suffixes e rest
  | .unary op line m e => .bind (alike_mark w m) fun _ => .bind (alike_expr e) fun e => alike_unary _ _ (w.related _)
  | .binary e rest => .bind (alike_expr e) fun e => alike_operations e rest

theorem alike_suffixes (e : Operand) : (rest : Suffixes) →
    Alike L (suffixes namedVariable e rest) (suffixes namedVariable e (rest.mapLines w.map))
  | .nil => alike_pure e
  | .field m name rest => .bind (alike_fieldOf w ..) fun e => alike_suffixes e rest
  | .index opening key closing rest => by
    refine .bind (alike_toAnyRegisterOrUpvalue e) fun e => .bind (alike_mark w opening) fun _ => ?_
    refine .bind (alike_expr key) fun key => .bind (alike_toValue key) fun key => ?_
    exact .bind (alike_mark w closing) fun _ => .bind (alike_indexed e key) fun e => alike_suffixes e rest
  | .call line as rest => by
    refine .bind (alike_toNextRegister e) fun e => .bind (alike_args as) fun last => ?_
    exact .bind (alike_call _ _ (w.related _)) fun e => alike_suffixes e rest
  | .method m name line as rest => by
    refine .bind (alike_mark w m) fun _ => .bind (alike_stringOperand name) fun key => ?_
    refine .bind (alike_method e key) fun e => .bind (alike_args as) fun last => ?_
    exact .bind (alike_call _ _ (w.related _)) fun e => alike_suffixes e rest

theorem alike_operations (e : Operand) : (rest : Operations) →
    Alike L (operations namedVariable e rest) (operations namedVariable e (rest.mapLines w.map))
  | .nil => alike_pure e
  | .cons op line m right rest => by
    refine .bind (alike_mark w m) fun _ => .bind (alike_prepareLeft op e) fun e => ?_
    refine .bind (alike_expr right) fun e2 => .bind (alike_binary _ _ _ (w.related _)) fun e => ?_
    exact alike_operations e rest

theorem alike_exprs (count : Int) : (es : Exprs) →
    Alike L (exprs namedVariable es count) (exprs namedVariable (es.mapLines w.map) count)
  | .one e => .bind (alike_expr e) fun _ => alike_pure _
  | .more e comma rest => by
    refine .bind (alike_expr e) fun e => .bind (alike_mark w comma) fun _ => ?_
    exact .bind (alike_toNextRegister e) fun _ => alike_exprs (count + 1) rest

theorem alike_args : (as : Args) → Alike L (args namedVariable as) (args namedVariable (as.mapLines w.map))
  | .missing f => alike_stopAt (w.related _)
  | .none opening closing => by
    simp only [args, Args.mapLines]
    simp
  | .list opening values closing => by
    refine .bind (alike_mark w opening) fun _ => .bind (alike_exprs 0 values) fun r => ?_
    simp
  | .table t => alike_table t
  | .string s m => by
    simp only [args, Args.mapLines]
    simp

theorem alike_table : (t : Table) → Alike L (table namedVariable t) (table namedVariable (t.mapLines w.map))
  | .mk opening fs closing => by
    refine .bind (alike_emitABC ..) fun at_ => .bind (alike_toNextRegister _) fun t => ?_
    refine .bind (alike_mark w opening) fun _ => .bind (alike_fields _ fs) fun c => ?_
    refine .bind (alike_mark w closing) fun _ => .bind (alike_closeItems c) fun c => ?_
    simp

theorem alike_fields (c : Constructor) : (fs : Fields) →
    Alike L (fields namedVariable fs c) (fields namedVariable (fs.mapLines w.map) c)
  | .nil => alike_pure c
  | .item value separator rest => by
    refine .bind (alike_closeItem c) fun c => .bind (alike_expr value) fun e => ?_
    exact .bind (alike_mark w separator) fun _ => alike_fields _ rest
  | .named m name assign value separator rest => by
    refine .bind (alike_closeItem c) fun c => .bind alike_firstFree fun reg => ?_
    refine .bind (alike_mark w m) fun _ => .bind (alike_stringOperand name) fun key => ?_
    refine .bind (alike_mark w assign) fun _ => .bind (alike_toRK key) fun r => ?_
    refine .bind (alike_expr value) fun e => .bind (alike_storeField ..) fun c => ?_
    exact .bind (alike_mark w separator) fun _ => alike_fields c rest
  | .keyed opening key assign value separator rest => by
    refine .bind (alike_closeItem c) fun c => .bind alike_firstFree fun reg => ?_
    refine .bind (alike_mark w opening) fun _ => .bind (alike_expr key) fun key => ?_
    refine .bind (alike_toValue key) fun key => .bind (alike_mark w assign) fun _ => ?_
    refine .bind (alike_toRK key) fun r => .bind (alike_expr value) fun e => ?_
    refine .bind (alike_storeField ..) fun c => ?_
    exact .bind (alike_mark w separator) fun _ => alike_fields c rest

theorem alike_body : (b : Body) → Alike L (body namedVariable b) (body namedVariable (b.mapLines w.map))
  | .mk line opening isMethod params dots inner b last closing => by
    simp only [body, Body.mapLines, length_mapLines, Option.isSome_map]
    refine .bind (alike_openFunction w.fresh ..) fun _ => .bind (alike_mark w opening) fun _ => ?_
    generalize dots.isSome = isVararg
    apply Alike.shared (α := Unit)
    · intro hrest
      generalize dots = dots
      refine .ite (.bind (alike_newLocal _) fun _ => .bind (alike_activate 1) fun _ => ?_) ?_ <;>
      · refine .bind (alike_newLocals w params) fun _ => ?_
        cases dots with
        | some m => exact .bind (alike_mark w m) hrest
        | none => exact hrest ()
    intro _
    refine .bind (alike_activate _) fun _ => .bind (.modifyFn fun f f' hf => ?_) fun _ => ?_
    · exact { hf with isVararg := rfl, params := hf.active }
    refine .getFn (fun _ _ => rfl) fun f => .bind (alike_reserve _) fun _ => ?_
    refine .bind (alike_mark w inner) fun _ => .bind (alike_block b) fun _ => ?_
    refine .bind (.modifyFn fun f f' hf => { hf with }) fun _ => .bind (alike_mark w closing) fun _ => ?_
    refine .bind alike_closeFunction fun n => ?_
    simp

theorem alike_stat : (s : Stat) → Alike L (stat namedVariable s) (stat namedVariable (s.mapLines w.map))
  | .missing f => alike_stopAt (w.related _)
  | .empty m => alike_mark w m
  | .block opening b closing => by
    refine .bind (alike_mark w opening) fun _ => .bind (alike_enterScope _) fun _ => ?_
    exact .bind (alike_block b) fun _ => .bind alike_leaveScope fun _ => alike_mark w closing
  | .cond cs elseMark elseBody closing => by
    simp only [stat, Stat.mapLines, Option.isSome_map]
    refine .bind (alike_clauses _ _ cs) fun escapes => ?_
    have hend := (alike_mark w closing).bind fun _ => alike_aimHere escapes
    cases elseMark with
    | none => exact hend
    | some m =>
      refine .bind (alike_mark w m) fun _ => .bind (alike_enterScope _) fun _ => ?_
      exact .bind (alike_block elseBody) fun _ => .bind alike_leaveScope fun _ => hend
  | .while opening test doMark b closing => by
    refine .bind (alike_mark w opening) fun _ => .bind alike_label fun start => ?_
    refine .bind (alike_expr test) fun e => .bind (alike_condition e) fun exit => ?_
    refine .bind (alike_enterScope _) fun _ => .bind (alike_mark w doMark) fun _ => ?_
    refine .bind (alike_enterScope _) fun _ => .bind (alike_block b) fun _ => ?_
    refine .bind alike_leaveScope fun _ => .bind (alike_jumpBackTo start) fun _ => ?_
    exact .bind (alike_mark w closing) fun _ => .bind alike_leaveScope fun _ => alike_aimHere exit
  | .repeat opening b untilMark test => by
    refine .bind alike_label fun start => .bind (alike_enterScope _) fun _ => ?_
    refine .bind (alike_enterScope _) fun _ => .bind (alike_mark w opening) fun _ => ?_
    refine .bind (alike_block b) fun _ => .bind (alike_mark w untilMark) fun _ => ?_
    refine .bind (alike_expr test) fun e => .bind (alike_condition e) fun again => ?_
    refine .bind alike_currentScope fun scope => ?_
    refine .ite (.bind (alike_closeOnJump ..) fun _ => ?_) ?_ <;> simp
  | .forNum line opening name assign first comma limit s doMark b closing => by
    refine .bind (alike_enterScope _) fun _ => .bind (alike_mark w opening) fun _ => ?_
    refine .bind alike_firstFree fun base => ?_
    iterate 4 refine .bind (alike_newLocal _) fun _ => ?_
    refine .bind (alike_mark w assign) fun _ => .bind (alike_expr first) fun e => ?_
    refine .bind (alike_toNextRegister e) fun _ => .bind (alike_mark w comma) fun _ => ?_
    refine .bind (alike_expr limit) fun e => .bind (alike_toNextRegister e) fun _ => ?_
    refine .bind (alike_step s) fun _ => .bind (alike_activate _) fun _ => ?_
    refine .bind (alike_mark w doMark) fun _ => .bind (alike_startLoop ..) fun prep => ?_
    refine .bind (alike_block b) fun _ => .bind (alike_endLoop _ _ _ (w.related _) _) fun _ => ?_
    exact .bind (alike_mark w closing) fun _ => alike_leaveScope
  | .forIn opening name names inMark line values doMark b closing => by
    simp only [stat, Stat.mapLines, length_mapLines]
    refine .bind (alike_enterScope _) fun _ => .bind (alike_mark w opening) fun _ => ?_
    refine .bind alike_firstFree fun base => ?_
    iterate 4 refine .bind (alike_newLocal _) fun _ => ?_
    refine .bind (alike_newLocals w names) fun _ => .bind (alike_mark w inMark) fun _ => ?_
    refine .bind (alike_exprs 0 values) fun r => .bind (alike_adjustTo ..) fun _ => ?_
    refine .bind (alike_ensureRegisters _) fun _ => .bind (alike_activate _) fun _ => ?_
    refine .bind (alike_mark w doMark) fun _ => .bind (alike_startLoop ..) fun prep => ?_
    refine .bind (alike_block b) fun _ => .bind (alike_endLoop _ _ _ (w.related _) _) fun _ => ?_
    exact .bind (alike_mark w closing) fun _ => alike_leaveScope
  | .function line opening name fields method b => by
    refine .bind (alike_mark w opening) fun _ => .bind (alike_namedVariable name) fun v => ?_
    refine .bind (alike_path w v fields) fun v => ?_
    have hstore (v : Operand) :=
      (alike_body b).bind fun e => (alike_store v e).bind fun _ => alike_moveLastToLine (w.related line)
    cases method with
    | none => exact .bind (alike_pure v) hstore
    | some n => exact .bind (alike_fieldOf w ..) hstore
  | .localFunction opening name b => by
    refine .bind (alike_mark w opening) fun _ => .bind (alike_newLocal name) fun _ => ?_
    refine .bind (alike_activate 1) fun _ => .bind (alike_body b) fun e => ?_
    simp
  | .localVars names vs => by
    refine .bind (alike_newLocals w names) fun _ => .bind (alike_values vs) fun r => ?_
    simp
  | .label line m name isLast => .bind (alike_mark w m) fun _ => alike_defineLabel ..
  | .goto g => .bind alike_jump fun l => alike_goto w g l
  | .ret vs m => by
    refine .bind (alike_values vs) fun r => ?_
    refine .ite ?_ ?_ <;> simp
  | .call e m => by
    refine .bind (alike_expr e) fun e => ?_
    simp
  | .assign ts assign vs => by
    refine .bind (alike_targets [] ts) fun ts => .bind (alike_mark w assign) fun _ => ?_
    exact .bind (alike_exprs 0 vs) fun r => alike_assignTo ..

theorem alike_values : (vs : Values) → Alike L (values namedVariable vs) (values namedVariable (vs.mapLines w.map))
  | .none m => by
    simp only [values, Values.mapLines]
    simp
  | .given m es => .bind (alike_mark w m) fun _ => alike_exprs 0 es

theorem alike_step : (s : Step) → Alike L (step namedVariable s) (step namedVariable (s.mapLines w.map))
  | .unit => by
    refine .bind (alike_internConstant _) fun k => .getFn (fun _ _ => rfl) fun f => ?_
    simp
  | .given comma e => .bind (alike_mark w comma) fun _ => .bind (alike_expr e) fun e => by simp

theorem alike_clauses (hasElse : Bool) (escapes : JumpList) : (cs : Clauses) →
    Alike L (clauses namedVariable cs hasElse escapes) (clauses namedVariable (cs.mapLines w.map) hasElse escapes)
  | .nil => alike_pure escapes
  | .cons opening test thenMark lead b rest => by
    refine .bind (alike_mark w opening) fun _ => .bind (alike_expr test) fun e => ?_
    refine .bind (alike_mark w thenMark) fun _ => ?_
    apply Alike.shared
    · intro hclose
      generalize lead = lead
      cases lead with
      | none =>
        refine .bind (alike_continueIfTrue e) fun e => .bind (alike_enterScope _) fun _ => ?_
        exact .bind (alike_pure _) hclose
      | some l =>
        refine .bind (alike_continueIfFalse e) fun e => .bind (alike_enterScope _) fun _ => ?_
        refine .bind (alike_goto w ..) fun _ => .bind (alike_mark w _) fun _ => ?_
        exact .ite (.bind (alike_pure _) hclose) (.bind alike_jump fun j => .bind (alike_pure _) hclose)
    intro exit
    cases exit with
    | none => exact .bind alike_leaveScope fun _ => alike_clauses hasElse escapes rest
    | some exit =>
      refine .bind (alike_block b) fun _ => .bind alike_leaveScope fun _ => ?_
      have hnext (escapes : JumpList) := (alike_aimHere exit).bind fun _ => alike_clauses hasElse escapes rest
      cases rest <;>
        exact .ite (.bind (alike_pure escapes) hnext) (.bind alike_jump fun j => .bind (alike_concat escapes j) hnext)

theorem alike_targets (before : List Operand) : (ts : Targets) →
    Alike L (targets namedVariable ts before) (targets namedVariable (ts.mapLines w.map) before)
  | .nil => alike_pure before
  | .cons comma e m rest => by
    refine .bind (alike_mark w comma) fun _ => .bind (alike_expr e) fun v => ?_
    have hrest (before : List Operand) := (alike_mark w m).bind fun _ => alike_targets (v :: before) rest
    cases v.kind with
    | indexed inUpvalue key => exact .bind (alike_pure before) hrest
    | _ => exact .bind (alike_protectTargets ..) hrest

theorem alike_block : (b : Block) → Alike L (block namedVariable b) (block namedVariable (b.mapLines w.map))
  | .nil => alike_pure ()
  | .cons s rest => .bind (alike_stat s) fun _ => .bind alike_endStat fun _ => alike_block rest

end

/-! ## Whole sources -/

theorem alikeUpTo_finished : AlikeUpTo L (fun p p' => p.forgetLines = p'.forgetLines ∧ p.Alike L p')
    (do let s ← get; return s.fn.toProto s.source) (do let s ← get; return s.fn.toProto s.source) :=
  ⟨fun s s' hs => .ok ⟨⟨hs.fn.toProto s.source s'.source, hs.fn.alike_toProto s.source s'.source⟩, hs⟩⟩

/-- A source and the same with other lines both fail, or give functions that differ in lines only, as
the lines do. -/
theorem chunk_agree_mapLines (c : Chunk) (name name' : Bytes) :
    Agree (Failure.Alike L.lines) (fun r r' => r.1.forgetLines = r'.1.forgetLines ∧ r.1.Alike L r'.1)
      (chunk namedVariable c (.initial name)) (chunk namedVariable (c.mapLines w.map) (.initial name')) := by
  obtain ⟨opening, body, closing⟩ := c
  cases opening with
  | stop f => exact .error (w.related f.line)
  | line n =>
    have hstart : GenState.Alike L False { GenState.initial name with line := n } { GenState.initial name' with line := w.map n } :=
      ⟨w.related n, by constructor <;> first | rfl | exact .empty | exact .nil | exact w.fresh _, .nil, .nil, False.elim⟩
    have hclose := AlikeUpTo.bind alike_closeFunction fun _ _ _ => alikeUpTo_finished (L := L)
    have hbody := AlikeUpTo.bind (alike_block w body) fun _ _ _ => .bind (alike_mark w closing) fun _ _ _ => hclose
    have hmain := AlikeUpTo.bind (alike_openMain w.first) fun _ _ _ => hbody
    exact (hmain.run _ _ hstart).mono fun _ _ h => h.1

end Gen

end RegisterCompiler
