import RegisterCompiler.Proofs.SpacedTokens

/-!
# Formulas and how they are written

* `Formula` : names and literals under operators;
* `Phrase` : a formula with parentheses, as it stands in a source;
* `Formula.minimal`, `Formula.full` : a formula with parentheses where the priorities ask for them, and
  with parentheses around every operator and its operands;
* `Phrase.Readable` : this holds for every operand. `readable_minimal` and `readable_full` say that both
  forms are readable.
-/

namespace RegisterCompiler

/-! ## Lexemes of formulas -/

/-- The kinds of token that are operands by themselves: names and literals. -/
def Token.Kind.isAtom : Token.Kind → Bool
  | .number | .string | .name | .word .kNil | .word .kTrue | .word .kFalse => true
  | _ => false

/-- A name or a literal: a text on one line that is one token of such a kind. -/
structure Atom where
  text : Bytes
  alone : (firstToken text).raw = text
  isAtom : (firstToken text).kind.isAtom = true
  oneLine : ∀ b ∈ text, isBreak b = false

def Lexeme.fixed (text : Bytes) (kind : Token.Kind) (hkind : (firstToken text).kind = kind)
    (hplain : ∀ f, kind ≠ .fault f) (halone : (firstToken text).raw = text) (hne : text ≠ [])
    (hline : ∀ b ∈ text, isBreak b = false) : Lexeme :=
  ⟨text, halone, hne, hkind ▸ hplain, hline⟩

namespace Atom

theorem ne_nil (a : Atom) : a.text ≠ [] := by
  intro hnil
  have h := a.isAtom
  rw [hnil] at h
  cases h

def lexeme (a : Atom) : Lexeme where
  text := a.text
  alone := a.alone
  ne_nil := a.ne_nil
  sound := fun f hf => by
    have h := a.isAtom
    rw [hf] at h
    cases h
  oneLine := a.oneLine

end Atom

def UnaryOp.kind : UnaryOp → Token.Kind
  | .minus => .symbol .minus
  | .not => .word .kNot
  | .len => .symbol .hash

def BinaryOp.kind : BinaryOp → Token.Kind
  | .add => .symbol .plus
  | .sub => .symbol .minus
  | .mul => .symbol .star
  | .div => .symbol .slash
  | .mod => .symbol .percent
  | .pow => .symbol .caret
  | .concat => .symbol .concat
  | .eq => .symbol .equal
  | .lt => .symbol .less
  | .le => .symbol .lessEqual
  | .ne => .symbol .notEqual
  | .gt => .symbol .greater
  | .ge => .symbol .greaterEqual
  | .and => .word .kAnd
  | .or => .word .kOr

theorem UnaryOp.ofKind?_kind (op : UnaryOp) : UnaryOp.ofKind? op.kind = some op := by
  cases op <;> rfl

theorem BinaryOp.ofKind?_kind (op : BinaryOp) : BinaryOp.ofKind? op.kind = some op := by
  cases op <;> rfl

theorem UnaryOp.kind_text (op : UnaryOp) : (firstToken op.text).kind = op.kind := by
  cases op <;> rfl

theorem BinaryOp.kind_text (op : BinaryOp) : (firstToken op.text).kind = op.kind := by
  cases op <;> rfl

def UnaryOp.lexeme (op : UnaryOp) : Lexeme :=
  .fixed op.text op.kind op.kind_text (fun f => by cases op <;> rintro ⟨⟩) (by cases op <;> rfl)
    (by cases op <;> decide) (Cursor.forall_not_isBreak (by cases op <;> rfl))

def BinaryOp.lexeme (op : BinaryOp) : Lexeme :=
  .fixed op.text op.kind op.kind_text (fun f => by cases op <;> rintro ⟨⟩) (by cases op <;> rfl)
    (by cases op <;> decide) (Cursor.forall_not_isBreak (by cases op <;> rfl))

def leftParen : Lexeme :=
  .fixed (bytes "(") (.symbol .leftParen) rfl (fun _ => by rintro ⟨⟩) rfl (by decide) (Cursor.forall_not_isBreak rfl)

def rightParen : Lexeme :=
  .fixed (bytes ")") (.symbol .rightParen) rfl (fun _ => by rintro ⟨⟩) rfl (by decide) (Cursor.forall_not_isBreak rfl)

def returnWord : Lexeme :=
  .fixed (bytes "return") (.word .kReturn) rfl (fun _ => by rintro ⟨⟩) rfl (by decide) (Cursor.forall_not_isBreak rfl)

/-! ## Formulas -/

inductive Formula where
  | atom (a : Atom)
  | unary (op : UnaryOp) (e : Formula)
  | binary (op : BinaryOp) (l r : Formula)

/-- A formula as it is written: some of its parts are in parentheses. -/
inductive Phrase where
  | atom (a : Atom)
  | unary (op : UnaryOp) (e : Phrase)
  | binary (op : BinaryOp) (l r : Phrase)
  | paren (e : Phrase)

namespace Phrase

def lexemes : Phrase → List Lexeme
  | .atom a => [a.lexeme]
  | .unary op e => op.lexeme :: e.lexemes
  | .binary op l r => l.lexemes ++ op.lexeme :: r.lexemes
  | .paren e => leftParen :: (e.lexemes ++ [rightParen])

def text (w : Phrase) : Bytes :=
  [32].intercalate (w.lexemes.map Lexeme.text)

def formula : Phrase → Formula
  | .atom a => .atom a
  | .unary op e => .unary op e.formula
  | .binary op l r => .binary op l.formula r.formula
  | .paren e => e.formula

def parenIf (needed : Bool) (w : Phrase) : Phrase :=
  if needed then .paren w else w

end Phrase

namespace Formula

/-- An operator of left priority `k` after the formula would take only the end of it as its operand. -/
def yieldsTo (k : Nat) : Formula → Bool
  | .atom _ => false
  | .unary _ _ => unaryPriority < k
  | .binary op _ _ => op.right < k

/-- The operator of the formula is not taken in where only left priorities above `limit` are. -/
def notAbove (limit : Nat) : Formula → Bool
  | .binary op _ _ => op.left ≤ limit
  | _ => false

/-- Parentheses stand only where the priorities ask for them. -/
def minimal : Formula → Phrase
  | .atom a => .atom a
  | .unary op e => .unary op (e.minimal.parenIf (e.notAbove unaryPriority))
  | .binary op l r =>
    .binary op (l.minimal.parenIf (l.yieldsTo op.left)) (r.minimal.parenIf (r.notAbove op.right))

/-- Parentheses stand around every operator and its operands. -/
def full : Formula → Phrase
  | .atom a => .atom a
  | .unary op e => .paren (.unary op e.full)
  | .binary op l r => .paren (.binary op l.full r.full)

end Formula

/-! ## What can be read back -/

namespace Phrase

variable {w : Phrase} {needed : Bool}

/-- An operator of left priority `k` after the text takes all of it as its left operand. -/
def Stops (k : Nat) : Phrase → Prop
  | .unary _ e => k ≤ unaryPriority ∧ e.Stops k
  | .binary op _ r => k ≤ op.right ∧ r.Stops k
  | _ => True

/-- All operators outside parentheses on the left side are taken in where only left priorities above
`limit` are. -/
def Above (limit : Nat) : Phrase → Prop
  | .binary op l _ => limit < op.left ∧ l.Above limit
  | _ => True

def IsOperation : Phrase → Prop
  | .unary _ _ | .binary _ _ _ => True
  | _ => False

/-- Every operator takes what it is meant to take, and only operators with their operands are in
parentheses. -/
def Readable : Phrase → Prop
  | .atom _ => True
  | .unary _ e => e.Above unaryPriority ∧ e.Readable
  | .binary op l r => l.Stops op.left ∧ r.Above op.right ∧ l.Readable ∧ r.Readable
  | .paren e => e.IsOperation ∧ e.Readable

theorem above_zero (w : Phrase) : w.Above 0 := by
  induction w with
  | binary op l r ihl ihr => exact ⟨by cases op <;> decide, ihl⟩
  | _ => trivial

theorem stops_parenIf {k : Nat} (h : needed = false → w.Stops k) : (w.parenIf needed).Stops k := by
  cases needed with
  | true => trivial
  | false => exact h rfl

theorem above_parenIf {limit : Nat} (h : needed = false → w.Above limit) : (w.parenIf needed).Above limit := by
  cases needed with
  | true => trivial
  | false => exact h rfl

theorem readable_parenIf (h : w.Readable) (hop : needed = true → w.IsOperation) : (w.parenIf needed).Readable := by
  cases needed with
  | true => exact ⟨hop rfl, h⟩
  | false => exact h

@[simp] theorem formula_parenIf (w : Phrase) (needed : Bool) : (w.parenIf needed).formula = w.formula := by
  cases needed <;> rfl

end Phrase

/-! ## The two forms -/

/-- No operator binds tighter to the right than to the left, nor looser by more than one. -/
theorem BinaryOp.right_le_left (op : BinaryOp) : op.right ≤ op.left ∧ op.left ≤ op.right + 1 := by
  cases op <;> decide

/-- An operator that binds looser than some right priority binds looser than all operators before an
operand. -/
theorem BinaryOp.left_le_unaryPriority {op o : BinaryOp} (h : op.left ≤ o.right) : op.left ≤ unaryPriority := by
  cases op <;> cases o <;> revert h <;> decide

namespace Formula

variable {e : Formula}

theorem minimal_isOperation (h : ∀ a, e ≠ .atom a) : e.minimal.IsOperation := by
  cases e with
  | atom a => exact absurd rfl (h a)
  | unary op e => trivial
  | binary op l r => trivial

theorem ne_atom_of_notAbove {limit : Nat} (h : e.notAbove limit = true) (a : Atom) : e ≠ .atom a := by
  rintro rfl
  cases h

theorem ne_atom_of_yieldsTo {k : Nat} (h : e.yieldsTo k = true) (a : Atom) : e ≠ .atom a := by
  rintro rfl
  cases h

theorem stops_minimal {op : BinaryOp} (h : e.yieldsTo op.left = false) : e.minimal.Stops op.left := by
  induction e with
  | atom a => trivial
  | unary o e ih =>
    have hk : op.left ≤ unaryPriority := by simpa [yieldsTo] using h
    refine ⟨hk, Phrase.stops_parenIf fun habove => ih ?_⟩
    cases e with
    | atom a => rfl
    | unary o' e => exact h
    | binary o' l r =>
      have hleft : unaryPriority < o'.left := by simpa [notAbove] using habove
      have := o'.right_le_left
      simp only [yieldsTo, decide_eq_false_iff_not]
      omega
  | binary o l r _ ih =>
    have hk : op.left ≤ o.right := by simpa [yieldsTo] using h
    refine ⟨hk, Phrase.stops_parenIf fun habove => ih ?_⟩
    cases r with
    | atom a => rfl
    | unary o' e =>
      have := BinaryOp.left_le_unaryPriority hk
      simpa [yieldsTo] using this
    | binary o' l r =>
      have hleft : o.right < o'.left := by simpa [notAbove] using habove
      have := o'.right_le_left
      simp only [yieldsTo, decide_eq_false_iff_not]
      omega

theorem above_minimal {limit : Nat} (h : e.notAbove limit = false) : e.minimal.Above limit := by
  induction e with
  | atom a => trivial
  | unary o e ih => trivial
  | binary o l r ih _ =>
    have hlimit : limit < o.left := by simpa [notAbove] using h
    refine ⟨hlimit, Phrase.above_parenIf fun hyields => ih ?_⟩
    cases l with
    | atom a => rfl
    | unary o' e => rfl
    | binary o' l r =>
      have hright : o.left ≤ o'.right := by simpa [yieldsTo] using hyields
      have := o'.right_le_left
      simp only [notAbove, decide_eq_false_iff_not]
      omega

theorem readable_minimal (e : Formula) : e.minimal.Readable := by
  induction e with
  | atom a => trivial
  | unary op e ih =>
    refine ⟨Phrase.above_parenIf above_minimal, Phrase.readable_parenIf ih fun h => ?_⟩
    exact minimal_isOperation (ne_atom_of_notAbove h)
  | binary op l r ihl ihr =>
    refine ⟨Phrase.stops_parenIf stops_minimal, Phrase.above_parenIf above_minimal,
      Phrase.readable_parenIf ihl fun h => ?_, Phrase.readable_parenIf ihr fun h => ?_⟩
    · exact minimal_isOperation (ne_atom_of_yieldsTo h)
    · exact minimal_isOperation (ne_atom_of_notAbove h)

theorem formula_minimal (e : Formula) : e.minimal.formula = e := by
  induction e with
  | atom a => rfl
  | unary op e ih => simp [minimal, Phrase.formula, ih]
  | binary op l r ihl ihr => simp [minimal, Phrase.formula, ihl, ihr]

theorem stops_full (e : Formula) (k : Nat) : e.full.Stops k ∧ e.full.Above k := by
  cases e <;> exact ⟨trivial, trivial⟩

theorem readable_full (e : Formula) : e.full.Readable := by
  induction e with
  | atom a => trivial
  | unary op e ih => exact ⟨trivial, (stops_full e _).2, ih⟩
  | binary op l r ihl ihr => exact ⟨trivial, (stops_full l _).1, (stops_full r _).2, ihl, ihr⟩

theorem formula_full (e : Formula) : e.full.formula = e := by
  induction e with
  | atom a => rfl
  | unary op e ih => simp [full, Phrase.formula, ih]
  | binary op l r ihl ihr => simp [full, Phrase.formula, ihl, ihr]

end Formula

end RegisterCompiler
