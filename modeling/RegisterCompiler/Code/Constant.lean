import RegisterCompiler.Number.Decimal
import RegisterCompiler.Text.Quoted

/-!
# Constants

The entries of a function's constant table. Numbers among them are told apart by their bits.
-/

namespace RegisterCompiler

/-- What an image holds of a constant: its kind, and beside that a truth value, a number and a text, of
which the kind says which one counts. -/
structure Constant.Record where
  kind : UInt8
  truth : Bool
  number : Number
  text : Bytes
deriving DecidableEq

/-- There is nothing in the record but what a constant of its kind is. -/
abbrev Constant.Record.IsPlain (r : Record) : Prop :=
  r.kind ≤ 3 ∧ (r.kind ≠ 1 → r.truth = false) ∧ (r.kind ≠ 2 → r.number = .zero) ∧ (r.kind ≠ 3 → r.text = [])

/-- A constant. An image may hold others than sources have: of a kind that this version does not know,
or with more in the record than the kind needs. -/
inductive Constant where
  | nil
  | boolean (b : Bool)
  | number (x : Number)
  | string (s : Bytes)
  | other (r : {r : Constant.Record // ¬ r.IsPlain})
deriving DecidableEq

inductive Constant.Key where
  | nil
  | boolean (b : Bool)
  | number (bits : UInt64)
  | string (s : Bytes)
deriving DecidableEq, Hashable

namespace Constant

def record : Constant → Record
  | .nil => ⟨0, false, .zero, []⟩
  | .boolean b => ⟨1, b, .zero, []⟩
  | .number x => ⟨2, false, x, []⟩
  | .string s => ⟨3, false, .zero, s⟩
  | .other r => r

/-- The identity of a constant; one of an unknown kind is taken for nil. -/
def key (v : Constant) : Key :=
  match v.record.kind.toNat with
  | 1 => .boolean v.record.truth
  | 2 => .number v.record.number.bits
  | 3 => .string v.record.text
  | _ => .nil

def same (v w : Constant) : Bool :=
  v.key == w.key

def kindName (kind : Nat) : Bytes :=
  match kind with
  | 0 => bytes "nil"
  | 1 => bytes "boolean"
  | 2 => bytes "number"
  | 3 => bytes "string"
  | _ => bytes "unknown"

end Constant

/-- Numbers as the language prints them: fourteen significant digits, and an exponent from `1e14` on
and below `1e-4`. -/
def Number.printStyle : Style where
  digits := some 14
  wide := 14
  plusInfinity := "inf"
  minusInfinity := "-inf"
  nan := "nan"

def Number.text (x : Number) : Bytes :=
  x.render printStyle

def Constant.text (v : Constant) : Bytes :=
  match v.key with
  | .nil => bytes "nil"
  | .boolean b => bytes (if b then "true" else "false")
  | .number x => Number.text ⟨x⟩
  | .string s => Text.quoted s

end RegisterCompiler
