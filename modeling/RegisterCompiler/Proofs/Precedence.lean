import RegisterCompiler.Proofs.Passes
import RegisterCompiler.Proofs.Formulas

/-!
# Operator precedence

* `Formula.tree` : the tree of a formula, without parentheses;
* `Denotes x e` : the tree `x` makes the same code as that of `e`, all of it on line 1;
* `Reader.expr_reads` : the text of a readable formula is read as a tree that denotes the formula, unless
  it nests too deeply;
* `compile_minimal_eq_full` : parentheses that the priorities do not ask for make no difference.
-/

namespace RegisterCompiler

open Gen

/-! ## Trees of formulas -/

/-- The tree of a name or literal on line 1. -/
def Atom.tree (a : Atom) : Expr :=
  let t := firstToken a.text
  match t.kind with
  | .number => .number t.value (.line 1)
  | .string => .string t.literal (.line 1)
  | .name => .name (.line 1) t.literal
  | .word .kNil => .nil (.line 1)
  | .word .kTrue => .true (.line 1)
  | .word .kFalse => .false (.line 1)
  | _ => .missing ⟨.unexpectedSymbol, 1, []⟩

/-- The tree of a formula on line 1. -/
def Formula.tree : Formula → Expr
  | .atom a => a.tree
  | .unary op e => .unary op 1 (.line 1) e.tree
  | .binary op l r => .binary l.tree (.cons op 1 (.line 1) r.tree .nil)

namespace Gen

variable {α β : Type}

def Fails (m : Gen α) : Prop :=
  ∀ s r, m s ≠ .ok r

theorem Fails.bind {m : Gen α} (h : Fails m) (k : α → Gen β) : Fails (m >>= k) := by
  intro s r hr
  change Except.bind (m s) _ = _ at hr
  cases hm : m s with
  | error e =>
    rw [hm] at hr
    cases hr
  | ok a => exact h s a hm

theorem Fails.after {k : α → Gen β} (h : ∀ a, Fails (k a)) (m : Gen α) : Fails (m >>= k) := by
  intro s r hr
  change Except.bind (m s) _ = _ at hr
  cases hm : m s with
  | error e =>
    rw [hm] at hr
    cases hr
  | ok a =>
    rw [hm] at hr
    exact h a.1 a.2 r hr

theorem fails_stopAt (f : SyntaxFault) : Fails (stopAt f : Gen α) := by
  rintro s r ⟨⟩

def FirstLine : View := .ofLines fun n n' => n = 1 ∧ n' = 1

theorem Alike.afterMark {m m' : Gen α} (h : Alike FirstLine m m') : Alike FirstLine (do mark (.line 1); m) m' :=
  ⟨fun s s' hs => h.run { s with line := 1 } s' { hs with line := ⟨rfl, hs.line.2⟩ }⟩

theorem Alike.bind_idle {L : View} {m m' : Gen α} {k : α → Gen α} {P : α → Prop} (h : Alike L m m')
    (hm : m'.Gives P) (hk : ∀ a, P a → Alike L (k a) (pure a)) : Alike L (m >>= k) m' := by
  refine ⟨fun s s' hs => ?_⟩
  have hrun := h.run s s' hs
  change Agree _ _ (Except.bind (m s) _) (m' s')
  cases hr' : m' s' with
  | error e =>
    rw [hr'] at hrun
    generalize m s = r at hrun ⊢
    cases hrun with
    | error he => exact .error he
  | ok r' =>
    obtain ⟨a, t'⟩ := r'
    have hP := hm s' a t' hr'
    rw [hr'] at hrun
    generalize m s = r at hrun ⊢
    obtain ⟨rfl, ht⟩ | _ := hrun
    exact (hk _ hP).run _ _ ht

end Gen

/-- The tree makes the same code as that of the formula, all of it on line 1. -/
structure Denotes (x : Expr) (e : Formula) : Prop where
  alike : Gen.Alike FirstLine (expr namedVariable x) (expr namedVariable e.tree)

theorem blind_mark : Blind FirstLine (mark (.line 1)) :=
  alike_onLine ⟨rfl, rfl⟩

theorem denotes_atom (a : Atom) : Denotes a.tree (.atom a) := by
  constructor
  show Blind FirstLine (expr namedVariable a.tree)
  unfold Atom.tree
  dsimp only
  split
  case h_2 => exact .bind (alike_stringOperand _) fun _ => .bind blind_mark fun _ => alike_pure _
  case h_3 => exact .bind blind_mark fun _ => alike_namedVariable _
  case h_7 => exact alike_stopAt ⟨rfl, rfl⟩
  all_goals exact .bind blind_mark fun _ => alike_pure _

namespace Denotes

variable {x : Expr} {e : Formula}

theorem unary (h : Denotes x e) (op : UnaryOp) : Denotes (.unary op 1 (.line 1) x) (.unary op e) := by
  constructor
  exact .bind blind_mark fun _ => .bind h.alike fun y => alike_unary op y ⟨rfl, rfl⟩

/-- The result of an operator is a value, so there is nothing to do at the closing parenthesis. -/
theorem paren (h : Denotes x e) (he : (expr namedVariable e.tree).Gives (·.isValue = true)) :
    Denotes (.paren (.line 1) x (.line 1)) e := by
  constructor
  refine .afterMark (.bind_idle h.alike he fun y hy => .afterMark ?_)
  rw [discharge_eq_pure hy]
  exact alike_pure y

end Denotes

structure Link where
  op : BinaryOp
  right : Expr

/-- The link on line 1. -/
def Link.cell (l : Link) : Operations → Operations :=
  .cons l.op 1 (.line 1) l.right

def Gen.links : List Link → Operand → Gen Operand
  | [], x => pure x
  | l :: ls, x => do
    let x ← links ls x
    mark (.line 1)
    let x ← prepareLeft l.op x
    binary l.op x (← expr namedVariable l.right) 1

theorem Gen.operations_assemble (ls : List Link) (rest : Operations) (x : Operand) :
    operations namedVariable x (Reader.assemble (ls.map Link.cell) rest) =
      (do operations namedVariable (← links ls x) rest) := by
  induction ls generalizing rest with
  | nil => simp [Reader.assemble, links]
  | cons l ls ih =>
    have hstep : Reader.assemble ((l :: ls).map Link.cell) rest = Reader.assemble (ls.map Link.cell) (l.cell rest) := rfl
    rw [hstep, ih]
    simp [links, Link.cell, operations]

/-- The first operand with the links makes the same code as the formula, all of it on line 1. -/
structure Chains (first : Expr) (ls : List Link) (e : Formula) : Prop where
  alike : Gen.Alike FirstLine (do links ls (← expr namedVariable first)) (expr namedVariable e.tree)

theorem Denotes.chains {x : Expr} {e : Formula} (h : Denotes x e) : Chains x [] e := by
  constructor
  simpa [links] using h.alike

theorem Chains.cons {first x : Expr} {ls : List Link} {l r : Formula} (h : Chains first ls l) (hx : Denotes x r)
    (op : BinaryOp) : Chains first (⟨op, x⟩ :: ls) (.binary op l r) := by
  have hlinks : (do links (⟨op, x⟩ :: ls) (← expr namedVariable first)) =
      ((do links ls (← expr namedVariable first)) >>= fun y => do
        mark (.line 1)
        let y ← prepareLeft op y
        binary op y (← expr namedVariable x) 1) := by
    simp [links]
  constructor
  rw [hlinks]
  simp only [Formula.tree, expr, operations, bind_pure]
  refine .bind h.alike fun y => .bind blind_mark fun _ => .bind (alike_prepareLeft ..) fun y => ?_
  exact .bind hx.alike fun z => alike_binary op y z ⟨rfl, rfl⟩

/-! ## Reading -/

/-- All tokens are on line 1, and none is a fault. -/
def Clean (ts : List Token) : Prop :=
  ∀ t ∈ ts, t.pos.line = 1 ∧ ∀ f, t.kind ≠ .fault f

def headKind (ts : List Token) : Token.Kind :=
  (ts.headD Reader.endToken).kind

/-- The kinds of token that may follow a formula. -/
def Token.Kind.Closes (k : Token.Kind) : Prop :=
  k = .eof ∨ k = .symbol .rightParen ∨ ∃ op : BinaryOp, k = op.kind

/-- What follows the text neither goes on with it nor takes a part of it as an operand. -/
structure Follows (w : Phrase) (rest : List Token) : Prop where
  closes : (headKind rest).Closes
  stops (op : BinaryOp) : headKind rest = op.kind → w.Stops op.left

namespace Reader

section Steps
variable {t : Token} {ts : List Token} {line size : Nat}

theorem run_bind {α β : Type} (m : Reader α) (k : α → Reader β) (f : Feed) : (m >>= k) f = k (m f).1 (m f).2 := rfl

theorem run_pure {α : Type} (a : α) (f : Feed) : (pure a : Reader α) f = (a, f) := rfl

theorem run_current : current ⟨t :: ts, line, size⟩ = (t, ⟨t :: ts, line, size⟩) := rfl

theorem run_kind : kind ⟨ts, line, size⟩ = (headKind ts, ⟨ts, line, size⟩) := rfl

theorem advance_eq (h : Clean (t :: ts)) : advance ⟨t :: ts, line, size⟩ = (.line 1, ⟨ts, 1, size⟩) := by
  have hline : t.pos.line = 1 := (h t (by simp)).1
  have hhere : advance ⟨t :: ts, line, size⟩ = here ⟨ts, t.pos.line, size⟩ := by
    cases ts with
    | nil => rfl
    | cons t' ts =>
      have hsound := (h t' (by simp)).2
      obtain ⟨k, literal, raw, value, pos⟩ := t'
      cases k with
      | fault f => exact absurd rfl (hsound f)
      | _ => rfl
  rw [hhere, hline]
  rfl

theorem advance_pure (h : Clean (t :: ts)) (f : Mark → Expr) :
    (do return f (← advance) : Reader Expr) ⟨t :: ts, line, size⟩ = (f (.line 1), ⟨ts, 1, size⟩) := by
  rw [run_bind, advance_eq h]
  rfl

theorem expect_eq {k : Token.Kind} (hk : t.kind = k) (h : Clean (t :: ts)) :
    expect k ⟨t :: ts, line, size⟩ = (.line 1, ⟨ts, 1, size⟩) := by
  change (if t.kind == k then advance else stop (.expected k) : Reader Mark) ⟨t :: ts, line, size⟩ = _
  rw [hk, beq_self_eq_true, if_pos rfl, advance_eq h]

theorem suffixesFrom_closes (ex : Reader Expr) (opened fuel : Nat) (acc : List (Suffixes → Suffixes))
    (h : (headKind ts).Closes) :
    suffixesFrom ex opened (fuel + 1) acc ⟨ts, line, size⟩ = (assemble acc .nil, ⟨ts, line, size⟩) := by
  rw [suffixesFrom, run_bind, run_kind]
  rcases h with h | h | ⟨op, h⟩
  · rw [h]
    rfl
  · rw [h]
    rfl
  · rw [h]
    cases op <;> rfl

def firstOperand (n : Nat) (isVararg : Bool) : Reader Expr := do
  match UnaryOp.ofKind? (← kind) with
  | some op =>
    let opLine ← Reader.line
    let m ← advance
    pure (Expr.unary op opLine m (← expr n isVararg unaryPriority))
  | none => simple isVararg (expr n isVararg 0) fun v => block (stat n v)

def join (e : Expr) : Operations → Expr
  | .nil => e
  | rest => .binary e rest

theorem expr_succ (n : Nat) (isVararg : Bool) (limit : Nat) :
    expr (n + 1) isVararg limit = do
      let e ← firstOperand n isVararg
      let ops ← operationsFrom (fun l => expr n isVararg l) limit (← bound) []
      return join e ops := by
  unfold firstOperand
  rw [bind_assoc]
  refine bind_congr fun k => ?_
  cases UnaryOp.ofKind? k with
  | none =>
    refine bind_congr fun e => bind_congr fun b => bind_congr fun ops => ?_
    cases ops <;> rfl
  | some op =>
    simp only [bind_assoc, pure_bind]
    refine bind_congr fun opLine => bind_congr fun m => bind_congr fun e => bind_congr fun b => bind_congr fun ops => ?_
    cases ops <;> rfl

theorem operationsFrom_closes (operand : Nat → Reader Expr) (limit fuel : Nat) (acc : List (Operations → Operations))
    (h : (headKind ts).Closes) (hlimit : ∀ op : BinaryOp, headKind ts = op.kind → op.left ≤ limit) :
    operationsFrom operand limit (fuel + 1) acc ⟨ts, line, size⟩ = (assemble acc .nil, ⟨ts, line, size⟩) := by
  rw [operationsFrom, run_bind, run_kind]
  rcases h with h | h | ⟨op, h⟩
  · rw [h]
    rfl
  · rw [h]
    rfl
  · have hle := hlimit op h
    rw [h, BinaryOp.ofKind?_kind]
    dsimp only
    rw [if_neg (by omega)]
    rfl

theorem operationsFrom_operator (operand : Nat → Reader Expr) {limit : Nat} {op : BinaryOp} (fuel : Nat)
    (acc : List (Operations → Operations)) (ht : t.kind = op.kind) (hop : limit < op.left) (h : Clean (t :: ts)) :
    operationsFrom operand limit (fuel + 1) acc ⟨t :: ts, line, size⟩ =
      operationsFrom operand limit fuel (.cons op 1 (.line 1) (operand op.right ⟨ts, 1, size⟩).1 :: acc)
        (operand op.right ⟨ts, 1, size⟩).2 := by
  have hline : t.pos.line = 1 := (h t (by simp)).1
  have hkind : headKind (t :: ts) = op.kind := ht
  rw [operationsFrom, run_bind, run_kind, hkind]
  rw [BinaryOp.ofKind?_kind]
  dsimp only
  rw [if_pos hop]
  change operationsFrom operand limit fuel
    (.cons op t.pos.line (advance ⟨t :: ts, line, size⟩).1
      (operand op.right (advance ⟨t :: ts, line, size⟩).2).1 :: acc)
    (operand op.right (advance ⟨t :: ts, line, size⟩).2).2 = _
  rw [advance_eq h, hline]

theorem operationsFrom_assemble (operand : Nat → Reader Expr) (limit fuel : Nat)
    (acc : List (Operations → Operations)) (f : Feed) :
    ∃ ops, (operationsFrom operand limit fuel acc f).1 = assemble acc ops := by
  induction fuel generalizing acc f with
  | zero => exact ⟨.nil, rfl⟩
  | succ fuel ih =>
    rw [operationsFrom, run_bind]
    cases BinaryOp.ofKind? (kind f).1 with
    | none => exact ⟨.nil, rfl⟩
    | some op =>
      dsimp only
      split
      · obtain ⟨ops, h⟩ := ih (.cons op (Reader.line f).1 (advance f).1 (operand op.right (advance f).2).1 :: acc)
          (operand op.right (advance f).2).2
        exact ⟨.cons op (Reader.line f).1 (advance f).1 (operand op.right (advance f).2).1 ops, h⟩
      · exact ⟨.nil, rfl⟩

end Steps

end Reader

/-! ## Texts that lie ahead -/

/-- The kinds of token that a formula starts with. -/
def Token.Kind.Opens (k : Token.Kind) : Prop :=
  k.isAtom = true ∨ (∃ op : UnaryOp, k = op.kind) ∨ k = .symbol .leftParen

theorem Phrase.opens (w : Phrase) : ∃ x xs, w.lexemes = x :: xs ∧ x.content.1.Opens := by
  induction w with
  | atom a => exact ⟨a.lexeme, [], rfl, .inl a.isAtom⟩
  | unary op e _ => exact ⟨op.lexeme, e.lexemes, rfl, .inr (.inl ⟨op, op.kind_text⟩)⟩
  | paren e _ => exact ⟨leftParen, e.lexemes ++ [rightParen], rfl, .inr (.inr rfl)⟩
  | binary op l r ihl _ =>
    obtain ⟨x, xs, hl, hx⟩ := ihl
    exact ⟨x, xs ++ op.lexeme :: r.lexemes, by rw [lexemes, hl, List.cons_append], hx⟩

/-- The text lies ahead as the tokens `ts`, and `rest` follows it. -/
structure Ahead (w : Phrase) (ts rest : List Token) (size : Nat) : Prop where
  readable : w.Readable
  contents : ts.map Token.content = w.lexemes.map Lexeme.content
  clean : Clean (ts ++ rest)
  follows : Follows w rest
  size : ts.length ≤ size

theorem Clean.tail {t : Token} {ts : List Token} (h : Clean (t :: ts)) : Clean ts :=
  fun x hx => h x (List.mem_cons_of_mem t hx)

theorem Clean.right {ts us : List Token} (h : Clean (ts ++ us)) : Clean us :=
  fun x hx => h x (List.mem_append_right ts hx)

namespace Ahead

variable {w e l r : Phrase} {ts rest : List Token} {size : Nat}

theorem atom {a : Atom} (h : Ahead (.atom a) ts rest size) : ∃ t, ts = [t] ∧ t.content = a.lexeme.content := by
  obtain ⟨t, us, rfl, ht, hus⟩ := List.map_eq_cons_iff.1 h.contents
  obtain rfl := List.map_eq_nil_iff.1 hus
  exact ⟨t, rfl, ht⟩

theorem unary {op : UnaryOp} (h : Ahead (.unary op e) ts rest size) :
    ∃ t us, ts = t :: us ∧ t.kind = op.kind ∧ Ahead e us rest size := by
  obtain ⟨t, us, rfl, ht, hus⟩ := List.map_eq_cons_iff.1 h.contents
  refine ⟨t, us, rfl, (congrArg Prod.fst ht).trans op.kind_text, h.readable.2, hus, h.clean.tail, ?_, ?_⟩
  · exact ⟨h.follows.closes, fun o ho => (h.follows.stops o ho).2⟩
  · have := h.size
    rw [List.length_cons] at this
    omega

theorem binary {op : BinaryOp} (h : Ahead (.binary op l r) ts rest size) :
    ∃ us t vs, ts = us ++ t :: vs ∧ t.kind = op.kind ∧ Ahead l us (t :: (vs ++ rest)) size ∧ Ahead r vs rest size := by
  have hcontents := h.contents
  rw [Phrase.lexemes, List.map_append] at hcontents
  obtain ⟨us, ts', rfl, hus, hts'⟩ := List.map_eq_append_iff.1 hcontents
  obtain ⟨t, vs, rfl, ht, hvs⟩ := List.map_eq_cons_iff.1 hts'
  have hkind : t.kind = op.kind := (congrArg Prod.fst ht).trans op.kind_text
  have hclean : Clean (us ++ (t :: (vs ++ rest))) := by simpa using h.clean
  have hsize := h.size
  rw [List.length_append, List.length_cons] at hsize
  refine ⟨us, t, vs, rfl, hkind, ⟨h.readable.2.2.1, hus, hclean, ⟨.inr (.inr ⟨op, hkind⟩), fun o ho => ?_⟩, by omega⟩,
    ⟨h.readable.2.2.2, hvs, hclean.right.tail, ⟨h.follows.closes, fun o ho => (h.follows.stops o ho).2⟩, by omega⟩⟩
  have heq : op.kind = o.kind := hkind.symm.trans ho
  obtain rfl : op = o := Option.some.inj (by rw [← op.ofKind?_kind, ← o.ofKind?_kind, heq])
  exact h.readable.1

theorem paren (h : Ahead (.paren e) ts rest size) :
    ∃ t us t', ts = t :: (us ++ [t']) ∧ t.kind = .symbol .leftParen ∧ t'.kind = .symbol .rightParen ∧
      Ahead e us (t' :: rest) size := by
  obtain ⟨t, ts', rfl, ht, hts'⟩ := List.map_eq_cons_iff.1 h.contents
  rw [List.map_append] at hts'
  obtain ⟨us, vs, rfl, hus, hvs⟩ := List.map_eq_append_iff.1 hts'
  obtain ⟨t', vs, rfl, ht', hvs⟩ := List.map_eq_cons_iff.1 hvs
  obtain rfl := List.map_eq_nil_iff.1 hvs
  have hkind : t'.kind = .symbol .rightParen := congrArg Prod.fst ht'
  have hclean : Clean (t :: (us ++ (t' :: rest))) := by simpa using h.clean
  have hsize := h.size
  rw [List.length_cons, List.length_append] at hsize
  refine ⟨t, us, t', rfl, congrArg Prod.fst ht, hkind, h.readable.2, hus, hclean.tail,
    ⟨.inr (.inl hkind), fun o ho => ?_⟩, by omega⟩
  have heq : Token.Kind.symbol .rightParen = o.kind := hkind.symm.trans ho
  cases o <;> cases heq

theorem length_pos (h : Ahead w ts rest size) : 0 < ts.length := by
  have hlen := congrArg List.length h.contents
  rw [List.length_map, List.length_map] at hlen
  obtain ⟨x, xs, hw, -⟩ := w.opens
  rw [hw, List.length_cons] at hlen
  omega

end Ahead

/-! ## Reading them -/

/-- Reading the text gave a tree that makes no code at all, or one that denotes the formula, and `rest` is
left. -/
def ReadAs (w : Phrase) (rest : List Token) (size : Nat) (r : Expr × Feed) : Prop :=
  Fails (expr namedVariable r.1) ∨ Denotes r.1 w.formula ∧ r.2 = ⟨rest, 1, size⟩

namespace Reader

/-- With `n` levels left, texts are read as trees that denote their formulas. -/
def LevelReads (n : Nat) (isVararg : Bool) : Prop :=
  ∀ {w : Phrase} {ts rest : List Token} {size : Nat} (limit line : Nat), Ahead w ts rest size → w.Above limit →
    (∀ op : BinaryOp, headKind rest = op.kind → op.left ≤ limit) →
    ReadAs w rest size (expr n isVararg limit ⟨ts ++ rest, line, size⟩)

section Level
variable {n : Nat} {isVararg : Bool} {w : Phrase} {ts rest : List Token} {size : Nat}

theorem firstOperand_none {t : Token} (ht : UnaryOp.ofKind? t.kind = none) (ts : List Token) (line size : Nat) :
    firstOperand n isVararg ⟨t :: ts, line, size⟩ =
      simple isVararg (expr n isVararg 0) (fun v => block (stat n v)) ⟨t :: ts, line, size⟩ := by
  change (match UnaryOp.ofKind? t.kind with
    | some op => _
    | none => simple isVararg (expr n isVararg 0) fun v => block (stat n v) : Reader Expr) ⟨t :: ts, line, size⟩ = _
  rw [ht]

def attach (e : Expr) : Suffixes → Expr
  | .nil => e
  | rest => .suffixed e rest

theorem suffixed_eq (ex : Reader Expr) (f : Feed) : suffixed ex f =
      (attach (primary ex f).1 (suffixesFrom ex (Reader.line f).1 (primary ex f).2.size [] (primary ex f).2).1,
        (suffixesFrom ex (Reader.line f).1 (primary ex f).2.size [] (primary ex f).2).2) := by
  have hprimary : primary ex (Reader.line f).2 = primary ex f := rfl
  have hbound (g : Feed) : bound g = (g.size, g) := rfl
  unfold suffixed
  simp only [run_bind, hprimary, hbound]
  cases (suffixesFrom ex (Reader.line f).1 (primary ex f).2.size [] (primary ex f).2).1 <;> rfl

theorem suffixed_closes {ex : Reader Expr} {f : Feed} {e : Expr} (h : primary ex f = (e, ⟨rest, 1, size⟩))
    (hsize : 0 < size) (hrest : (headKind rest).Closes) : suffixed ex f = (e, ⟨rest, 1, size⟩) := by
  obtain ⟨k, rfl⟩ : ∃ k, size = k + 1 := ⟨size - 1, by omega⟩
  rw [suffixed_eq, h]
  rw [suffixesFrom_closes _ _ _ _ hrest]
  rfl

theorem suffixed_fails {ex : Reader Expr} {f : Feed} (h : Fails (Gen.expr namedVariable (primary ex f).1)) :
    Fails (Gen.expr namedVariable (suffixed ex f).1) := by
  rw [suffixed_eq]
  cases (suffixesFrom ex (Reader.line f).1 (primary ex f).2.size [] (primary ex f).2).1 with
  | nil => exact h
  | _ =>
    change Fails (Gen.expr namedVariable (.suffixed _ _))
    exact h.bind _

theorem primary_paren (ex : Reader Expr) {t : Token} (ht : t.kind = .symbol .leftParen) (h : Clean (t :: ts))
    (line size : Nat) : primary ex ⟨t :: ts, line, size⟩ = (.paren (.line 1) (ex ⟨ts, 1, size⟩).1
        (expectClosing (.symbol .rightParen) (.symbol .leftParen) 1 (ex ⟨ts, 1, size⟩).2).1,
        (expectClosing (.symbol .rightParen) (.symbol .leftParen) 1 (ex ⟨ts, 1, size⟩).2).2) := by
  have hline : t.pos.line = 1 := (h t (by simp)).1
  have hkind : headKind (t :: ts) = .symbol .leftParen := ht
  rw [primary, run_bind, run_kind, hkind]
  change (Expr.paren (advance ⟨t :: ts, line, size⟩).1 (ex (advance ⟨t :: ts, line, size⟩).2).1
    (expectClosing (.symbol .rightParen) (.symbol .leftParen) t.pos.line (ex (advance ⟨t :: ts, line, size⟩).2).2).1,
    (expectClosing (.symbol .rightParen) (.symbol .leftParen) t.pos.line (ex (advance ⟨t :: ts, line, size⟩).2).2).2) = _
  rw [advance_eq h, hline]

theorem expectClosing_eq {what who : Token.Kind} {opened line : Nat} {t : Token} (ht : t.kind = what)
    (h : Clean (t :: ts)) : expectClosing what who opened ⟨t :: ts, line, size⟩ = (.line 1, ⟨ts, 1, size⟩) := by
  change (if t.kind == what then advance else _ : Reader Mark) ⟨t :: ts, line, size⟩ = _
  rw [ht, beq_self_eq_true, if_pos rfl, advance_eq h]

theorem firstOperand_atom {a : Atom} (h : Ahead (.atom a) ts rest size) (line : Nat) :
    firstOperand n isVararg ⟨ts ++ rest, line, size⟩ = (a.tree, ⟨rest, 1, size⟩) := by
  obtain ⟨t, rfl, hcontent⟩ := h.atom
  have hclean : Clean (t :: rest) := h.clean
  have hatom := a.isAtom
  change (t.kind, t.literal, t.value) = ((firstToken a.text).kind, (firstToken a.text).literal, (firstToken a.text).value)
    at hcontent
  rw [Prod.mk.injEq, Prod.mk.injEq] at hcontent
  obtain ⟨hkind, hliteral, hvalue⟩ := hcontent
  have hnone : UnaryOp.ofKind? t.kind = none := by
    rw [hkind]
    generalize (firstToken a.text).kind = k at hatom
    unfold UnaryOp.ofKind?
    split <;> first | rfl | cases hatom
  rw [List.singleton_append, firstOperand_none hnone]
  unfold Atom.tree
  dsimp only
  rw [← hkind, ← hliteral, ← hvalue]
  rw [← hkind] at hatom
  rw [simple, run_bind, run_current]
  unfold Token.Kind.isAtom at hatom
  split at hatom
  case h_3 hk =>
    rw [hk]
    refine suffixed_closes ?_ (Nat.lt_of_lt_of_le h.length_pos h.size) h.follows.closes
    have hname : headKind (t :: rest) = .name := hk
    rw [primary, run_bind, run_kind, hname]
    change (Expr.name (expect .name ⟨t :: rest, line, size⟩).1 t.literal, (expect .name ⟨t :: rest, line, size⟩).2) = _
    rw [expect_eq hk hclean]
  case h_7 => cases hatom
  all_goals
    rename_i hk
    rw [hk]
    exact advance_pure hclean _

theorem firstOperand_unary {op : UnaryOp} {e : Phrase} (hn : LevelReads n isVararg)
    (h : Ahead (.unary op e) ts rest size) (line : Nat) :
    ReadAs (.unary op e) rest size (firstOperand n isVararg ⟨ts ++ rest, line, size⟩) := by
  have hfollows := h.follows
  have hreadable := h.readable
  have hclean := h.clean
  obtain ⟨t, us, rfl, ht, hahead⟩ := h.unary
  have hclean : Clean (t :: (us ++ rest)) := hclean
  have hline : t.pos.line = 1 := (hclean t (by simp)).1
  have hfirst : firstOperand n isVararg ⟨t :: (us ++ rest), line, size⟩ =
      (.unary op 1 (.line 1) (expr n isVararg unaryPriority ⟨us ++ rest, 1, size⟩).1,
        (expr n isVararg unaryPriority ⟨us ++ rest, 1, size⟩).2) := by
    change (match UnaryOp.ofKind? t.kind with
      | some op => (do
        let opLine ← Reader.line
        let m ← advance
        pure (Expr.unary op opLine m (← expr n isVararg unaryPriority)))
      | none => _ : Reader Expr) ⟨t :: (us ++ rest), line, size⟩ = _
    rw [ht, op.ofKind?_kind]
    change (Expr.unary op t.pos.line (advance ⟨t :: (us ++ rest), line, size⟩).1
      (expr n isVararg unaryPriority (advance ⟨t :: (us ++ rest), line, size⟩).2).1,
      (expr n isVararg unaryPriority (advance ⟨t :: (us ++ rest), line, size⟩).2).2) = _
    rw [advance_eq hclean, hline]
  rw [List.cons_append, hfirst]
  rcases hn unaryPriority 1 hahead hreadable.1 fun o ho => (hfollows.stops o ho).1 with hfails | ⟨hdenotes, hrest⟩
  · refine .inl ?_
    exact .after (fun _ => hfails.bind _) _
  · exact .inr ⟨hdenotes.unary op, hrest⟩

theorem gives_isValue (h : w.IsOperation) : (Gen.expr namedVariable w.formula.tree).Gives (·.isValue = true) := by
  cases w with
  | atom a => cases h
  | paren e => cases h
  | unary op e =>
    exact .bind fun _ => .bind fun _ => gives_unary
  | binary op l r =>
    simp only [Phrase.formula, Formula.tree, Gen.expr, operations, bind_pure]
    exact .bind fun _ => .bind fun _ => .bind fun _ => .bind fun _ => gives_binary

theorem firstOperand_paren {e : Phrase} (hn : LevelReads n isVararg) (h : Ahead (.paren e) ts rest size) (line : Nat) :
    ReadAs (.paren e) rest size (firstOperand n isVararg ⟨ts ++ rest, line, size⟩) := by
  have hfollows := h.follows
  have hreadable := h.readable
  have hclean := h.clean
  have hsize : 0 < size := Nat.lt_of_lt_of_le h.length_pos h.size
  obtain ⟨t, us, t', rfl, ht, ht', hahead⟩ := h.paren
  have htokens : t :: (us ++ [t']) ++ rest = t :: (us ++ (t' :: rest)) := by simp
  rw [htokens] at hclean ⊢
  rw [firstOperand_none (by rw [ht]; rfl)]
  rw [simple, run_bind, run_current]
  rw [ht]
  change ReadAs _ _ _ (suffixed (expr n isVararg 0) ⟨t :: (us ++ (t' :: rest)), line, size⟩)
  have hprimary := primary_paren (expr n isVararg 0) ht hclean line size
  have hno (op : BinaryOp) : headKind (t' :: rest) ≠ op.kind := by
    intro hop
    have heq : Token.Kind.symbol .rightParen = op.kind := ht'.symm.trans hop
    cases op <;> cases heq
  rcases hn 0 1 hahead e.above_zero fun op hop => absurd hop (hno op) with hfails | ⟨hdenotes, hrest⟩
  · refine .inl (suffixed_fails ?_)
    rw [hprimary, Gen.expr]
    exact .after (fun _ => hfails.bind _) _
  · rw [hrest, expectClosing_eq ht' hclean.tail.right] at hprimary
    refine .inr ?_
    rw [suffixed_closes hprimary hsize hfollows.closes]
    exact ⟨hdenotes.paren (gives_isValue hreadable.1), rfl⟩

theorem expr_join (e : Expr) (ops : Operations) :
    Gen.expr namedVariable (join e ops) = (do operations namedVariable (← Gen.expr namedVariable e) ops) := by
  cases ops with
  | nil => simp [join, operations]
  | cons op line m right rest => simp [join, Gen.expr]

theorem expr_join_assemble (e : Expr) (ls : List Link) (ops : Operations) :
    Gen.expr namedVariable (join e (assemble (ls.map Link.cell) ops)) =
      (do
        let x ← Gen.expr namedVariable e
        operations namedVariable (← links ls x) ops) := by
  rw [expr_join]
  exact bind_congr fun x => operations_assemble ls ops x

/-- Reading a first operand gave one that makes no code at all. Or else operators after it are read as
far as the text goes, or to an operand that makes none. -/
def SpineRead (n : Nat) (isVararg : Bool) (limit : Nat) (w : Phrase) (ts rest : List Token) (size : Nat)
    (r : Expr × Feed) : Prop :=
  Fails (Gen.expr namedVariable r.1) ∨
    r.2.size = size ∧ ∀ fuel, ts.length ≤ fuel →
      (∃ ls : List Link, ls.length < ts.length ∧ Chains r.1 ls w.formula ∧
        operationsFrom (expr n isVararg) limit fuel [] r.2 =
          operationsFrom (expr n isVararg) limit (fuel - ls.length) (ls.map Link.cell) ⟨rest, 1, size⟩) ∨
      Fails (Gen.expr namedVariable (join r.1 (operationsFrom (expr n isVararg) limit fuel [] r.2).1))

theorem spine_of_readAs {r : Expr × Feed} (h : ReadAs w rest size r) (hts : 0 < ts.length) (limit : Nat) :
    SpineRead n isVararg limit w ts rest size r := by
  rcases h with hfails | ⟨hdenotes, hrest⟩
  · exact .inl hfails
  · refine .inr ⟨by rw [hrest], fun fuel _ => .inl ⟨[], hts, hdenotes.chains, ?_⟩⟩
    rw [hrest]
    rfl

theorem spine_read (hn : LevelReads n isVararg) (h : Ahead w ts rest size) (limit line : Nat) (habove : w.Above limit) :
    SpineRead n isVararg limit w ts rest size (firstOperand n isVararg ⟨ts ++ rest, line, size⟩) := by
  induction w generalizing ts rest with
  | atom a =>
    refine spine_of_readAs (.inr ?_) h.length_pos limit
    rw [firstOperand_atom h]
    exact ⟨denotes_atom a, rfl⟩
  | unary op e => exact spine_of_readAs (firstOperand_unary hn h line) h.length_pos limit
  | paren e => exact spine_of_readAs (firstOperand_paren hn h line) h.length_pos limit
  | binary op l r ihl _ =>
    have hfollows := h.follows
    have hreadable := h.readable
    obtain ⟨us, t, vs, rfl, ht, hleft, hright⟩ := h.binary
    have hclean : Clean (t :: (vs ++ rest)) := hleft.clean.right
    have hlimit (o : BinaryOp) (ho : headKind rest = o.kind) : o.left ≤ op.right := (hfollows.stops o ho).1
    have htokens : us ++ t :: vs ++ rest = us ++ t :: (vs ++ rest) := by simp
    rw [htokens]
    rcases ihl hleft habove.2 with hfails | ⟨hsize, hloop⟩
    · exact .inl hfails
    · refine .inr ⟨hsize, fun fuel hfuel => ?_⟩
      rw [List.length_append, List.length_cons] at hfuel
      rcases hloop fuel (by omega) with ⟨ls, hlen, hchains, hops⟩ | hfails
      · obtain ⟨k, hk⟩ : ∃ k, fuel - ls.length = k + 1 := ⟨fuel - ls.length - 1, by omega⟩
        rw [hk, operationsFrom_operator _ _ _ ht habove.1 hclean] at hops
        have hread := hn op.right 1 hright hreadable.2.1 hlimit
        generalize expr n isVararg op.right ⟨vs ++ rest, 1, size⟩ = right at hops hread
        rcases hread with hfails | ⟨hdenotes, hrest⟩
        · -- the operand that failed is among the operators, whatever is read after it
          obtain ⟨ops, hops'⟩ := operationsFrom_assemble (expr n isVararg) limit k
            ((⟨op, right.1⟩ :: ls : List Link).map Link.cell) right.2
          refine .inr ?_
          rw [hops]
          change Fails (Gen.expr namedVariable (join _ (operationsFrom (expr n isVararg) limit k
            ((⟨op, right.1⟩ :: ls : List Link).map Link.cell) right.2).1))
          rw [hops', expr_join_assemble]
          refine .after (fun x => .bind ?_ _) _
          exact .after (fun _ => .after (fun _ => .after (fun _ => hfails.bind _) _) _) _
        · refine .inl ⟨⟨op, right.1⟩ :: ls, ?_, hchains.cons hdenotes op, ?_⟩
          · rw [List.length_append, List.length_cons, List.length_cons]
            omega
          · rw [hops, hrest, List.length_cons, show fuel - (ls.length + 1) = k by omega]
            rfl
      · exact .inr hfails

theorem LevelReads.succ (hn : LevelReads n isVararg) : LevelReads (n + 1) isVararg := by
  intro w ts rest size limit line h habove hlimit
  rw [expr_succ]
  have hspine := spine_read hn h limit line habove
  change ReadAs w rest size
    (join (firstOperand n isVararg ⟨ts ++ rest, line, size⟩).1
      (operationsFrom (expr n isVararg) limit (firstOperand n isVararg ⟨ts ++ rest, line, size⟩).2.size []
        (firstOperand n isVararg ⟨ts ++ rest, line, size⟩).2).1,
      (operationsFrom (expr n isVararg) limit (firstOperand n isVararg ⟨ts ++ rest, line, size⟩).2.size []
        (firstOperand n isVararg ⟨ts ++ rest, line, size⟩).2).2)
  generalize firstOperand n isVararg ⟨ts ++ rest, line, size⟩ = r at hspine ⊢
  rcases hspine with hfails | ⟨hsize, hloop⟩
  · refine .inl ?_
    rw [expr_join]
    exact hfails.bind _
  · rw [hsize]
    rcases hloop size h.size with ⟨ls, hlen, hchains, hops⟩ | hfails
    · have := h.size
      obtain ⟨k, hk⟩ : ∃ k, size - ls.length = k + 1 := ⟨size - ls.length - 1, by omega⟩
      rw [hops, hk, operationsFrom_closes _ _ _ _ h.follows.closes hlimit]
      refine .inr ⟨⟨?_⟩, rfl⟩
      simpa [expr_join_assemble, operations] using hchains.alike
    · exact .inl hfails

end Level

theorem expr_reads (n : Nat) (isVararg : Bool) : LevelReads n isVararg := by
  induction n with
  | zero =>
    intro w ts rest size limit line h habove hlimit
    exact .inl (fails_stopAt _)
  | succ n ih => exact ih.succ

end Reader

/-! ## Return statements -/

def returning (x : Expr) : Chunk :=
  ⟨.line 1, .cons (.ret (.given (.line 1) (.one x)) (.line 1)) .nil, .line 1⟩

def Exprs.first : Exprs → Expr
  | .one e => e
  | .more e _ _ => e

namespace Reader

theorem exprsFrom_first (ex : Reader Expr) (fuel : Nat) (acc : List (Exprs → Exprs)) (e : Expr) (f : Feed) :
    ∃ es, (exprsFrom ex fuel acc e f).1 = assemble acc es ∧ es.first = e := by
  induction fuel generalizing acc e f with
  | zero => exact ⟨.one e, rfl, rfl⟩
  | succ fuel ih =>
    rw [exprsFrom, run_bind]
    cases (accept (.symbol .comma) f).1 with
    | none => exact ⟨.one e, rfl, rfl⟩
    | some m =>
      obtain ⟨es, hes, -⟩ := ih (.more e m :: acc) (ex (accept (.symbol .comma) f).2).1 (ex (accept (.symbol .comma) f).2).2
      exact ⟨.more e m es, hes, rfl⟩

theorem opens_cases {f : Feed} (h : (headKind f.tokens).Opens) :
    endsBlock true f = (false, f) ∧ isNext (.symbol .semicolon) f = (false, f) := by
  obtain ⟨ts, line, size⟩ := f
  rw [endsBlock, isNext, run_bind, run_bind, run_kind]
  generalize headKind ts = k at h
  rcases h with h | ⟨op, rfl⟩ | rfl
  · unfold Token.Kind.isAtom at h
    split at h
    all_goals first | exact ⟨rfl, rfl⟩ | cases h
  · cases op <;> exact ⟨rfl, rfl⟩
  · exact ⟨rfl, rfl⟩

theorem accept_other {k : Token.Kind} {f : Feed} (h : headKind f.tokens ≠ k) : accept k f = (none, f) := by
  change (if headKind f.tokens == k then do return some (← advance) else pure none : Reader (Option Mark)) f = _
  rw [if_neg (by simpa using h)]
  rfl

section Return
variable {t : Token} {ts : List Token} {size : Nat}

theorem returnStat_eq (ex : Reader Expr) (size : Nat) (h : Clean (t :: ts)) (hopens : (headKind ts).Opens) :
    ∃ m f, returnStat ex ⟨t :: ts, 1, size⟩ = (.ret (.given (.line 1) (exprs ex ⟨ts, 1, size⟩).1) m, f) ∧
      ∀ e : Token, e.kind = .eof → (exprs ex ⟨ts, 1, size⟩).2 = ⟨[e], 1, size⟩ → m = .line 1 ∧ f = ⟨[e], 1, size⟩ := by
  obtain ⟨hends, hsemi⟩ := opens_cases (f := ⟨ts, 1, size⟩) hopens
  unfold returnStat
  simp only [run_bind, advance_eq h, hends, hsemi]
  rw [if_neg (by decide)]
  simp only [run_bind, run_pure]
  generalize exprs ex ⟨ts, 1, size⟩ = es
  have hnone {e : Token} (he : e.kind = .eof) (hes : es.2 = ⟨[e], 1, size⟩) :
      accept (.symbol .semicolon) es.2 = (none, ⟨[e], 1, size⟩) := by
    rw [hes]
    exact accept_other (by simp [headKind, he])
  cases hsome : (accept (.symbol .semicolon) es.2).1 with
  | some m =>
    refine ⟨m, _, rfl, fun e he hes => ?_⟩
    rw [hnone he hes] at hsome
    cases hsome
  | none =>
    refine ⟨_, _, rfl, fun e he hes => ?_⟩
    rw [hnone he hes]
    exact ⟨rfl, rfl⟩

theorem chunk_return (ht : t.kind = .word .kReturn) (h : Clean (t :: ts)) (hopens : (headKind ts).Opens)
    (hsize : 0 < size) : ∃ m c, (chunk ⟨t :: ts, 1, size⟩).1 =
      ⟨.line 1, .cons (.ret (.given (.line 1) (exprs (expr 199 true 0) ⟨ts, 1, size⟩).1) m) .nil, c⟩ ∧
      ∀ e : Token, e.kind = .eof → (exprs (expr 199 true 0) ⟨ts, 1, size⟩).2 = ⟨[e], 1, size⟩ →
        m = .line 1 ∧ c = .line 1 := by
  obtain ⟨k, rfl⟩ : ∃ k, size = k + 1 := ⟨size - 1, by omega⟩
  obtain ⟨m, f, hreturn, hlines⟩ := returnStat_eq (expr 199 true 0) (k + 1) h hopens
  have hkind : kind ⟨t :: ts, 1, k + 1⟩ = (.word .kReturn, ⟨t :: ts, 1, k + 1⟩) := by
    change (t.kind, _) = _
    rw [ht]
  have hline : (Reader.line ⟨t :: ts, 1, k + 1⟩).2 = ⟨t :: ts, 1, k + 1⟩ := rfl
  have hstat : stat maxLevels true ⟨t :: ts, 1, k + 1⟩ =
      (.ret (.given (.line 1) (exprs (expr 199 true 0) ⟨ts, 1, k + 1⟩).1) m, f) := by
    rw [show maxLevels = 199 + 1 from rfl, stat, run_bind, run_bind, hline, hkind]
    exact hreturn
  have hblock : block (stat maxLevels true) ⟨t :: ts, 1, k + 1⟩ =
      (.cons (.ret (.given (.line 1) (exprs (expr 199 true 0) ⟨ts, 1, k + 1⟩).1) m) .nil, f) := by
    have hends : endsBlock true ⟨t :: ts, 1, k + 1⟩ = (false, ⟨t :: ts, 1, k + 1⟩) := by
      unfold endsBlock
      rw [run_bind, hkind]
      rfl
    have hlast : isNext (.word .kReturn) ⟨t :: ts, 1, k + 1⟩ = (true, ⟨t :: ts, 1, k + 1⟩) := by
      unfold isNext
      rw [run_bind, hkind]
      rfl
    have hstats : statsFrom (stat maxLevels true) (k + 1) [] ⟨t :: ts, 1, k + 1⟩ =
        ([.ret (.given (.line 1) (exprs (expr 199 true 0) ⟨ts, 1, k + 1⟩).1) m], f) := by
      unfold statsFrom
      rw [run_bind, hends]
      dsimp only
      rw [if_neg (by decide), run_bind, hlast, run_bind, hstat]
      rfl
    change (Block.ofReversed (statsFrom (stat maxLevels true) (k + 1) [] ⟨t :: ts, 1, k + 1⟩).1,
      (statsFrom (stat maxLevels true) (k + 1) [] ⟨t :: ts, 1, k + 1⟩).2) = _
    rw [hstats]
    rfl
  refine ⟨m, ((if (isNext .eof f).1 then here else stop (.expected .eof) : Reader Mark) (isNext .eof f).2).1, ?_, ?_⟩
  · unfold chunk
    have hhere : here ⟨t :: ts, 1, k + 1⟩ = (.line 1, ⟨t :: ts, 1, k + 1⟩) := rfl
    rw [run_bind, hkind]
    simp only [run_bind, hhere, hblock]
    cases (isNext .eof f).1 <;> rfl
  · intro e he hes
    obtain ⟨rfl, rfl⟩ := hlines e he hes
    have heof : isNext .eof ⟨[e], 1, k + 1⟩ = (true, ⟨[e], 1, k + 1⟩) := by
      change (e.kind == .eof, _) = _
      rw [he]
      rfl
    rw [heof]
    exact ⟨rfl, rfl⟩

end Return

end Reader

namespace Gen

theorem fails_exprs {es : Exprs} (h : Fails (expr namedVariable es.first)) (count : Int) :
    Fails (exprs namedVariable es count) := by
  cases es with
  | one e | more e m rest =>
    exact h.bind _

theorem fails_returns {es : Exprs} (h : Fails (expr namedVariable es.first)) (m c : Mark) :
    Fails (chunk namedVariable ⟨.line 1, .cons (.ret (.given (.line 1) es) m) .nil, c⟩) := by
  have hvalues : Fails (values namedVariable (.given (.line 1) es)) := by
    exact .after (fun _ => fails_exprs h 0) _
  have hstat : Fails (stat namedVariable (.ret (.given (.line 1) es) m)) := by
    exact hvalues.bind _
  have hblock : Fails (block namedVariable (.cons (.ret (.given (.line 1) es) m) .nil)) := by
    exact hstat.bind _
  exact .after (fun _ => .after (fun _ => hblock.bind _) _) _

end Gen

theorem intercalate_lexemes (x : Lexeme) (xs : List Lexeme) :
    [32].intercalate ((x :: xs).map Lexeme.text) = x.text ++ spaced xs := by
  induction xs generalizing x with
  | nil => simp [spaced, List.intercalate]
  | cons y xs ih =>
    rw [List.map_cons, List.map_cons, List.intercalate_cons_cons, ← List.map_cons, ih]
    simp [spaced]

theorem Phrase.source_eq (w : Phrase) : bytes "return " ++ w.text = returnWord.text ++ spaced w.lexemes := by
  obtain ⟨x, xs, hw, -⟩ := w.opens
  rw [text, hw, intercalate_lexemes]
  rfl

theorem scan_returning {w : Phrase} (hw : w.Readable) :
    ∃ t us e, scan (bytes "return " ++ w.text) = t :: (us ++ [e]) ∧ t.kind = .word .kReturn ∧ e.kind = .eof ∧
      Clean (t :: (us ++ [e])) ∧ Ahead w us [e] (us.length + 2) ∧ (headKind (us ++ [e])).Opens := by
  obtain ⟨ts, e, hscan, hcontents, heof, hlines⟩ := scan_lexemes returnWord w.lexemes (by decide)
  rw [← w.source_eq] at hscan
  have hsound : ∀ t ∈ ts, ∀ f, t.kind ≠ .fault f := by
    intro t ht f hf
    have hmem : t.content ∈ (returnWord :: w.lexemes).map Lexeme.content := hcontents ▸ List.mem_map_of_mem ht
    obtain ⟨x, -, hx⟩ := List.mem_map.1 hmem
    exact x.sound f ((congrArg Prod.fst hx).trans hf)
  have hclean : Clean (ts ++ [e]) := by
    intro t ht
    refine ⟨hlines t ht, fun f => ?_⟩
    rcases List.mem_append.1 ht with ht | ht
    · exact hsound t ht f
    · rw [List.mem_singleton.1 ht, heof]
      rintro ⟨⟩
  obtain ⟨t, us, rfl, ht, hus⟩ := List.map_eq_cons_iff.1 hcontents
  refine ⟨t, us, e, hscan, congrArg Prod.fst ht, heof, hclean, ?_, ?_⟩
  · refine ⟨hw, hus, hclean.tail, ⟨.inl heof, fun op hop => ?_⟩, by omega⟩
    have heq : Token.Kind.eof = op.kind := heof.symm.trans hop
    cases op <;> cases heq
  · obtain ⟨x, xs, hx, hopens⟩ := w.opens
    rw [hx] at hus
    obtain ⟨u, us, rfl, hu, -⟩ := List.map_eq_cons_iff.1 hus
    have hkind : u.kind = x.content.1 := congrArg Prod.fst hu
    rw [← hkind] at hopens
    exact hopens

/-- A source that returns a formula is read as a tree that denotes it, unless it makes no code at all. -/
theorem readChunk_returning {w : Phrase} (hw : w.Readable) :
    Fails (chunk namedVariable (readChunk (bytes "return " ++ w.text))) ∨
      ∃ x, Denotes x w.formula ∧ readChunk (bytes "return " ++ w.text) = returning x := by
  obtain ⟨t, us, e, hscan, ht, heof, hclean, hahead, hopens⟩ := scan_returning hw
  have hread : readChunk (bytes "return " ++ w.text) = (Reader.chunk ⟨t :: (us ++ [e]), 1, us.length + 2⟩).1 := by
    unfold readChunk
    rw [hscan]
    simp [StateT.run]
  rw [hread]
  obtain ⟨m, c, hchunk, hlast⟩ := Reader.chunk_return ht hclean hopens (Nat.succ_pos (us.length + 1))
  rw [hchunk]
  have hnone (op : BinaryOp) (hop : headKind [e] = op.kind) : op.left ≤ 0 := by
    have heq : Token.Kind.eof = op.kind := heof.symm.trans hop
    cases op <;> cases heq
  have hexpr := Reader.expr_reads 199 true 0 1 hahead w.above_zero hnone
  have hexprs : Reader.exprs (Reader.expr 199 true 0) ⟨us ++ [e], 1, us.length + 2⟩ =
      (fun r : Expr × Feed => Reader.exprsFrom (Reader.expr 199 true 0) r.2.size [] r.1 r.2)
        (Reader.expr 199 true 0 ⟨us ++ [e], 1, us.length + 2⟩) := rfl
  rw [hexprs] at hlast ⊢
  generalize Reader.expr 199 true 0 ⟨us ++ [e], 1, us.length + 2⟩ = r at hexpr hlast ⊢
  rcases hexpr with hfails | ⟨hdenotes, hrest⟩
  · obtain ⟨es, hes, hfirst⟩ := Reader.exprsFrom_first (Reader.expr 199 true 0) r.2.size [] r.1 r.2
    rw [hes]
    exact .inl (fails_returns (hfirst ▸ hfails) m c)
  · refine .inr ⟨r.1, hdenotes, ?_⟩
    have hone : Reader.exprsFrom (Reader.expr 199 true 0) r.2.size [] r.1 r.2 = (.one r.1, ⟨[e], 1, us.length + 2⟩) := by
      rw [hrest, Reader.exprsFrom, Reader.run_bind, Reader.accept_other (by simp [headKind, heof])]
      rfl
    dsimp only at hlast ⊢
    rw [hone] at hlast ⊢
    obtain ⟨rfl, rfl⟩ := hlast e heof rfl
    rfl

/-! ## Whole sources -/

namespace Denotes

variable {x : Expr} {e : Formula}

theorem alike_returning (h : Denotes x e) :
    AlikeUpTo FirstLine (fun p p' => p.forgetLines = p'.forgetLines ∧ LinesAlike FirstLine p.lines p'.lines)
      (chunk namedVariable (returning x)) (chunk namedVariable (returning e.tree)) := by
  have hvalues : Gen.Alike FirstLine (values namedVariable (.given (.line 1) (.one x)))
      (values namedVariable (.given (.line 1) (.one e.tree))) := by
    exact .bind blind_mark fun _ => .bind h.alike fun y => alike_pure _
  have hblock : Gen.Alike FirstLine (block namedVariable (returning x).body)
      (block namedVariable (returning e.tree).body) := by
    refine .bind (.bind hvalues fun y => .ite ?_ ?_) fun _ => .bind alike_endStat fun _ => alike_pure _
    · exact .bind (alike_ret ..) fun _ => blind_mark
    · exact .bind (alike_returnValues ..) fun _ => blind_mark
  refine .bind blind_mark fun _ _ _ => .bind (alike_openMain ⟨rfl, rfl⟩) fun _ _ _ => ?_
  refine .bind hblock fun _ _ _ => .bind blind_mark fun _ _ _ => ?_
  refine .bind alike_closeFunction fun _ _ _ => ⟨fun s s' hs => ?_⟩
  exact .ok ⟨⟨hs.fn.toProto s.source s'.source, hs.fn.lines⟩, hs⟩

end Denotes

theorem Proto.eq_of_forgetLines {p q : Proto} (h : p.forgetLines = q.forgetLines) :
    p.code = q.code ∧ p.constants = q.constants ∧ p.stack = q.stack := by
  cases p
  cases q
  rw [forgetLines, forgetLines, mk.injEq] at h
  obtain ⟨-, -, -, -, -, hstack, hcode, hconstants, -⟩ := h
  exact ⟨hcode, hconstants, hstack⟩

/-- Trees that denote one formula are compiled to functions that do not differ in code, constants, stack
and lines. -/
theorem returning_agree {x y : Expr} {e : Formula} (hx : Denotes x e) (hy : Denotes y e) {name name' : Bytes}
    {p q : Proto × GenState} (hp : chunk namedVariable (returning x) (.initial name) = .ok p)
    (hq : chunk namedVariable (returning y) (.initial name') = .ok q) :
    p.1.code = q.1.code ∧ p.1.constants = q.1.constants ∧ p.1.stack = q.1.stack ∧ p.1.lines = q.1.lines := by
  have hstart (a b : Bytes) : GenState.Alike FirstLine False { GenState.initial a with line := 1 }
      { GenState.initial b with line := 1 } :=
    ⟨⟨rfl, rfl⟩, by constructor <;> first | rfl | exact .nil | exact .empty | trivial, .nil, .nil, False.elim⟩
  have hrun (c : Expr) (a : Bytes) : chunk namedVariable (returning c) { GenState.initial a with line := 1 } =
      chunk namedVariable (returning c) (.initial a) := rfl
  have hxe := hx.alike_returning.run _ _ (hstart name name')
  have hye := hy.alike_returning.run _ _ (hstart name' name')
  rw [hrun, hp] at hxe
  rw [hrun, hq] at hye
  generalize chunk namedVariable (returning e.tree) { GenState.initial name' with line := 1 } = r at hxe hye
  obtain ⟨⟨hxe, hxl⟩, -⟩ | _ := hxe
  obtain ⟨⟨hye, hyl⟩, -⟩ | _ := hye
  obtain ⟨hcode, hconstants, hstack⟩ := Proto.eq_of_forgetLines (hxe.trans hye.symm)
  refine ⟨hcode, hconstants, hstack, Array.ext (hxl.size.trans hyl.size.symm) fun i hi hi' => ?_⟩
  rw [(hxl.get i hi (hxl.size ▸ hi)).1, (hyl.get i hi' (hyl.size ▸ hi')).1]

theorem Proto.strip_agree {p q : Proto} (hcode : p.code = q.code) (hconstants : p.constants = q.constants)
    (hstack : p.stack = q.stack) : p.strip.code = q.strip.code ∧ p.strip.constants = q.strip.constants ∧
      p.strip.stack = q.strip.stack ∧ p.strip.lines = q.strip.lines := by
  cases p
  cases q
  subst hcode hconstants hstack
  simp [strip]

theorem compile_returning {w : Phrase} (hw : w.Readable) {name : Bytes} {strip : Bool} {p : Proto}
    (h : compile (bytes "return " ++ w.text) name strip = .ok p) :
    ∃ x name' r, Denotes x w.formula ∧ chunk namedVariable (returning x) (.initial name') = .ok r ∧
      p = if strip then r.1.strip else r.1 := by
  obtain ⟨r, hr, hp⟩ := chunk_of_compile h
  rcases readChunk_returning hw with hfails | ⟨x, hdenotes, hread⟩
  · exact absurd hr (hfails _ r)
  · rw [hread] at hr
    exact ⟨x, _, r, hdenotes, hr, hp⟩

/-- Parentheses that the priorities do not ask for make no difference: a formula is compiled to the same
code, constants, stack and lines with parentheses around all operators as with no more than needed. -/
theorem compile_minimal_eq_full (e : Formula) (name name' : Bytes) (strip : Bool) {p q : Proto}
    (hp : compile (bytes "return " ++ e.minimal.text) name strip = .ok p)
    (hq : compile (bytes "return " ++ e.full.text) name' strip = .ok q) :
    p.code = q.code ∧ p.constants = q.constants ∧ p.stack = q.stack ∧ p.lines = q.lines := by
  obtain ⟨x, a, r, hx, hr, rfl⟩ := compile_returning e.readable_minimal hp
  obtain ⟨y, b, t, hy, ht, rfl⟩ := compile_returning e.readable_full hq
  rw [e.formula_minimal] at hx
  rw [e.formula_full] at hy
  obtain ⟨hcode, hconstants, hstack, hlines⟩ := returning_agree hx hy hr ht
  cases strip with
  | false => exact ⟨hcode, hconstants, hstack, hlines⟩
  | true =>
    exact Proto.strip_agree hcode hconstants hstack

/-- A power under a sign, less a difference, over the lengths of literals. -/
def Formula.difference : Formula :=
  let a : Formula := .unary .len (.atom ⟨bytes "nil", by decide, by decide, Cursor.forall_not_isBreak rfl⟩)
  .binary .sub (.unary .minus (.binary .pow a a)) (.binary .sub a a)

theorem compile_difference :
    Formula.difference.minimal.text = bytes "- ( # nil ) ^ # nil - ( # nil - # nil )" ∧
      Formula.difference.full.text = bytes "( ( - ( ( # nil ) ^ ( # nil ) ) ) - ( ( # nil ) - ( # nil ) ) )" ∧
      ∃ p q, compile (bytes "return " ++ Formula.difference.minimal.text) [] false = .ok p ∧
        compile (bytes "return " ++ Formula.difference.full.text) [] false = .ok q ∧
        p.code = q.code ∧ p.constants = q.constants ∧ p.stack = q.stack ∧ p.lines = q.lines := by
  have hsome : (compile (bytes "return " ++ Formula.difference.minimal.text) [] false).toOption.isSome ∧
      (compile (bytes "return " ++ Formula.difference.full.text) [] false).toOption.isSome := by
    decide +kernel
  cases hp : compile (bytes "return " ++ Formula.difference.minimal.text) [] false with
  | error e =>
    rw [hp] at hsome
    cases hsome.1
  | ok p =>
    cases hq : compile (bytes "return " ++ Formula.difference.full.text) [] false with
    | error e =>
      rw [hq] at hsome
      cases hsome.2
    | ok q =>
      exact ⟨by decide +kernel, by decide +kernel, p, q, rfl, rfl, compile_minimal_eq_full _ [] [] false hp hq⟩

end RegisterCompiler
