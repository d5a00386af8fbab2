import RegisterCompiler.Cbor
import RegisterCompiler.Text.Utf8

/-!
# Reading CBOR

`Cbor.decode?` reads an encoding in any of its forms: lengths and integers may take more bytes than they
need, and lengths may be left open. Refused are texts that break off or go on after the item, items that
nest too deeply or have too many members, and heads that are reserved.
-/

namespace RegisterCompiler.Cbor

def maxLevels : Nat := 32

def maxMembers : Nat := 131072

/-- The first byte of an item, and the argument after it. -/
structure Head where
  major : Nat
  info : Nat
  argument : Nat

def Head.isOpen (h : Head) : Bool :=
  h.info == 31

def takeBytes (n : Nat) (s : Bytes) : Option (Bytes × Bytes) :=
  let front := s.take n
  if front.length = n then some (front, s.drop n) else none

/-- The head of an item. A simple value that fits into the first byte may not take two. -/
def head : Bytes → Option (Head × Bytes)
  | [] => none
  | b :: s =>
    let major := b.toNat / 32
    let info := b.toNat % 32
    let wide (n : Nat) : Option (Head × Bytes) := do
      let (front, rest) ← takeBytes n s
      let x := Bytes.ofBigEndian front
      if major = 7 ∧ n = 1 ∧ x < 32 then none else some (⟨major, info, x⟩, rest)
    if info < 24 then some (⟨major, info, info⟩, s)
    else
      match info with
      | 24 => wide 1
      | 25 => wide 2
      | 26 => wide 4
      | 27 => wide 8
      | 31 => if major = 0 ∨ major = 1 ∨ major = 6 then none else some (⟨major, info, 0⟩, s)
      | _ => none

def isBreak (s : Bytes) : Bool :=
  s.head? == some 0xff

/-- The chunks of a string of open length, latest first in `acc`: strings of the same type with given
lengths. -/
def chunks (major : Nat) : (fuel : Nat) → (acc : List Bytes) → Bytes → Option (List Bytes × Bytes)
  | 0, _, _ => none
  | k + 1, acc, s =>
    if isBreak s then some (acc.reverse, s.drop 1)
    else do
      let (h, s) ← head s
      if h.major ≠ major ∨ h.isOpen then none
      else
        let (chunk, s) ← takeBytes h.argument s
        chunks major k (chunk :: acc) s

def contents (h : Head) (s : Bytes) : Option (List Bytes × Bytes) :=
  if h.isOpen then chunks h.major (s.length + 1) [] s
  else do
    let (front, rest) ← takeBytes h.argument s
    some ([front], rest)

def members {α : Type} (one : Bytes → Option (α × Bytes)) : (n : Nat) → (acc : List α) → Bytes →
    Option (List α × Bytes)
  | 0, acc, s => some (acc.reverse, s)
  | n + 1, acc, s => do
    let (x, s) ← one s
    members one n (x :: acc) s

/-- Members up to the end of an item of open length, at most `n` of them, latest first in `acc`. -/
def openMembers {α : Type} (one : Bytes → Option (α × Bytes)) : (n : Nat) → (acc : List α) → Bytes →
    Option (List α × Bytes)
  | n, acc, s =>
    if isBreak s then some (acc.reverse, s.drop 1)
    else
      match n with
      | 0 => none
      | n + 1 => do
        let (x, s) ← one s
        openMembers one n (x :: acc) s

def allMembers {α : Type} (one : Bytes → Option (α × Bytes)) (h : Head) (s : Bytes) :
    Option (List α × Bytes) :=
  if h.isOpen then openMembers one maxMembers [] s
  else if h.argument > maxMembers then none
  else members one h.argument [] s

def tags : (fuel : Nat) → (acc : List Nat) → Bytes → Option (List Nat × Bytes)
  | 0, _, _ => none
  | k + 1, acc, s => do
    let (h, rest) ← head s
    if h.major = 6 then tags k (h.argument :: acc) rest else some (acc, s)

def floating (f : Binary) (bits : Nat) : Option Cbor :=
  let (sign, shape) := f.unpack bits
  (Number.ofShape? sign shape).map .float

/-- An item of major type 7. -/
def primitive (h : Head) : Option Cbor :=
  match h.info with
  | 25 => floating .half h.argument
  | 26 => floating .single h.argument
  | 27 => floating .double h.argument
  | 31 => none
  | _ => some (.simple h.argument)

/-- An item with `levels` nested levels left; `fuel` exceeds `levels`. Arrays and maps take a level
each, and so does each tag of a tag, so that there are at most `levels + 1` tags. -/
def item : (fuel : Nat) → (levels : Nat) → Bytes → Option (Cbor × Bytes)
  | 0, _, _ => none
  | k + 1, levels, s => do
    let (ts, s) ← tags (levels + 2) [] s
    let (h, s) ← head s
    let inner := ts.length - 1
    let (x, s) ←
      match h.major with
      | 0 => some (.uint h.argument, s)
      | 1 => some (.negative h.argument, s)
      | 2 => (contents h s).map fun (parts, s) => (.blob parts.flatten, s)
      | 3 => (contents h s).map fun (parts, s) =>
          (if parts.all Utf8.valid then .text parts.flatten else .badText, s)
      | 4 =>
        if levels ≤ inner then none
        else (allMembers (item k (levels - inner - 1)) h s).map fun (xs, s) => (.array xs, s)
      | 5 =>
        if levels ≤ inner then none
        else
          let pair (s : Bytes) : Option ((Cbor × Cbor) × Bytes) := do
            let (key, s) ← item k (levels - inner - 1) s
            let (value, s) ← item k (levels - inner - 1) s
            some ((key, value), s)
          (allMembers pair h s).map fun (ps, s) => (.map ps, s)
      | _ => (primitive h).map (·, s)
    if levels < inner then none
    else some (ts.foldl (fun x t => .tag t x) x, s)

def decode? (s : Bytes) : Option Cbor := do
  let (x, rest) ← item (maxLevels + 1) maxLevels s
  if rest.isEmpty then some x else none

/-! ## Reading items as values of a type

Null and undefined stand for the zero value of every type. -/

def isNull : Cbor → Bool
  | .simple n => n == 22 || n == 23
  | _ => false

/-- An item without its tags. A tagged byte string may be an integer; of the other tags only those
for times are looked at, which have to fit their contents. -/
def untagged : Cbor → Option Cbor
  | .tag n x =>
    match n, x with
    | 0, .text _ | 0, .badText => untagged x
    | 0, _ => none
    | 1, .uint _ | 1, .negative _ | 1, .float _ => untagged x
    | 1, _ => none
    | 2, .blob s =>
      let n := Bytes.ofBigEndian s
      if n < 0x10000000000000000 then some (.uint n) else none
    | 2, _ => none
    | 3, .blob s =>
      let n := Bytes.ofBigEndian s
      if n < 0x8000000000000000 then some (.negative n) else none
    | 3, _ => none
    | _, _ => untagged x
  | x => some x

/-- An integer of 64 bits. -/
def int? (x : Cbor) : Option Int := do
  match ← untagged x with
  | .uint n => if n < 0x8000000000000000 then some n else none
  | .negative n => if n < 0x8000000000000000 then some (-1 - n) else none
  | .simple n =>
    if n = 22 ∨ n = 23 then some 0
    else if n = 20 ∨ n = 21 then none
    else some n
  | _ => none

def nat? (bound : Nat) (x : Cbor) : Option Nat := do
  let n ← int? x
  if 0 ≤ n ∧ n < bound then some n.toNat else none

def bool? (x : Cbor) : Option Bool := do
  match ← untagged x with
  | .simple 20 | .simple 22 | .simple 23 => some false
  | .simple 21 => some true
  | _ => none

def text? (x : Cbor) : Option Bytes := do
  match ← untagged x with
  | .text s => some s
  | .simple 22 | .simple 23 => some []
  | _ => none

def number? (x : Cbor) : Option Number := do
  match ← untagged x with
  | .float x => some x
  | .uint n => some (.ofInt n)
  | x => (int? x).map .ofInt

def listFrom {α : Type} (one : Cbor → Option α) : List Cbor → (acc : List α) → Option (List α)
  | [], acc => some acc.reverse
  | x :: xs, acc => do listFrom one xs ((← one x) :: acc)

def list? {α : Type} (one : Cbor → Option α) (x : Cbor) : Option (Option (List α)) := do
  match ← untagged x with
  | .array xs => (listFrom one xs []).map some
  | .simple 22 | .simple 23 => some none
  | _ => none

def signed (n : Nat) : Int :=
  if n < 0x8000000000000000 then n else n - 0x10000000000000000

/-- The number of the field that a key names, if it names one at all: an integer of 64 bits, or its
decimal text. Other keys are refused. -/
def fieldNumber (key : Cbor) : Option (Option Int) :=
  match key with
  | .uint n => some (some (signed n))
  | .negative n => some (some (-1 - signed n))
  | .text s =>
    let numbers := List.range 13
    some ((numbers.find? fun n => Bytes.ofNat n == s).map fun n => (n : Int))
  | _ => none

def fieldsFrom : List (Cbor × Cbor) → (acc : List (Int × Cbor)) → Option (List (Int × Cbor))
  | [], acc => some acc.reverse
  | (key, value) :: rest, acc => do
    match ← fieldNumber key with
    | some n => fieldsFrom rest ((n, value) :: acc)
    | none => fieldsFrom rest acc

def record? (x : Cbor) : Option (List (Int × Cbor)) := do
  match ← untagged x with
  | .map pairs => fieldsFrom pairs []
  | .simple 22 | .simple 23 => some []
  | _ => none

/-- The first field with a number, read by `one`; null if there is none. -/
def field {α : Type} (fields : List (Int × Cbor)) (n : Int) (one : Cbor → Option α) : Option α :=
  match fields.find? fun f => f.1 == n with
  | some f => one f.2
  | none => one null

end RegisterCompiler.Cbor
