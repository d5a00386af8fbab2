import RegisterCompiler.Cbor.Decode
import RegisterCompiler.Code.Proto
import RegisterCompiler.Hash.Sha256

/-!
# Images

An image holds a compiled main function with all functions inside it: five bytes that tell it from
other files, then a record of the format's version and the function, in canonical CBOR. Records are
maps from field numbers to values.
-/

namespace RegisterCompiler

/-! ## Records -/

def Cbor.ofFields (fields : List (Nat × Option Cbor)) : Cbor :=
  .map (fields.filterMap fun f => f.2.map (.uint f.1, ·))

def Cbor.ofList? {α : Type} (one : α → Cbor) : Option (List α) → Cbor
  | none => .null
  | some xs => .array (xs.map one)

def Cbor.ofText? (s : Bytes) : Option Cbor :=
  if s.isEmpty then none else some (.text s)

namespace Constant

/-- The truth value is written if it is true, and the text if it is not empty. -/
def Record.toCbor (r : Record) : Cbor :=
  .ofFields [(1, some (.uint r.kind.toNat)), (2, if r.truth then some (Cbor.ofBool true) else none),
    (3, some (.float r.number)), (4, Cbor.ofText? r.text)]

def Record.ofCbor? (x : Cbor) : Option Record := do
  let fs ← Cbor.record? x
  return ⟨.ofNat (← Cbor.field fs 1 (Cbor.nat? 256)), ← Cbor.field fs 2 Cbor.bool?,
    ← Cbor.field fs 3 Cbor.number?, ← Cbor.field fs 4 Cbor.text?⟩

def ofRecord (r : Record) : Constant :=
  if h : r.IsPlain then
    match r.kind.toNat with
    | 0 => .nil
    | 1 => .boolean r.truth
    | 2 => .number r.number
    | _ => .string r.text
  else .other ⟨r, h⟩

def toCbor (v : Constant) : Cbor :=
  v.record.toCbor

def ofCbor? (x : Cbor) : Option Constant :=
  (Record.ofCbor? x).map ofRecord

end Constant

namespace Upvalue

def toCbor (u : Upvalue) : Cbor :=
  .ofFields [(1, Cbor.ofText? u.name), (2, some (Cbor.ofBool u.isLocal)), (3, some (Cbor.ofInt u.index))]

def ofCbor? (x : Cbor) : Option Upvalue := do
  let fs ← Cbor.record? x
  return ⟨← Cbor.field fs 1 Cbor.text?, ← Cbor.field fs 2 Cbor.bool?, ← Cbor.field fs 3 Cbor.int?⟩

end Upvalue

namespace LocalVar

def toCbor (v : LocalVar) : Cbor :=
  .ofFields [(1, some (.text v.name)), (2, some (Cbor.ofInt v.startPC)), (3, some (Cbor.ofInt v.endPC))]

def ofCbor? (x : Cbor) : Option LocalVar := do
  let fs ← Cbor.record? x
  return ⟨← Cbor.field fs 1 Cbor.text?, ← Cbor.field fs 2 Cbor.int?, ← Cbor.field fs 3 Cbor.int?⟩

end LocalVar

namespace Proto

def listOf {α : Type} (one : α → Cbor) (xs : Option (Array α)) : Cbor :=
  Cbor.ofList? one (xs.map (·.toList))

mutual

/-- A function as a record. Lines and local variables are left out if there are none. -/
def toCbor : Proto → Cbor
  | ⟨source, line, lastLine, params, isVararg, stack, code, constants, protos, upvalues, lines,
      locals⟩ =>
    .ofFields [
      (1, some (.text source)),
      (2, some (.ofInt line)),
      (3, some (.ofInt lastLine)),
      (4, some (.ofInt params)),
      (5, some (.ofBool isVararg)),
      (6, some (.ofInt stack)),
      (7, some (listOf (fun i => .uint i.word.toNat) code)),
      (8, some (listOf Constant.toCbor constants)),
      (9, some (protosToCbor protos)),
      (10, some (Cbor.ofList? Upvalue.toCbor upvalues)),
      (11, if lines.isEmpty then none else some (listOf .ofInt (some lines))),
      (12, if locals.isEmpty then none else some (Cbor.ofList? LocalVar.toCbor (some locals)))]

def protosToCbor : Option (List (Option Proto)) → Cbor
  | none => .null
  | some ps => .array (childrenToCbor ps)

def childrenToCbor : List (Option Proto) → List Cbor
  | [] => []
  | p :: ps => childToCbor p :: childrenToCbor ps

def childToCbor : Option Proto → Cbor
  | none => .null
  | some p => toCbor p

end

/-- The function that a record describes, with functions nested at most `levels` deep. -/
def ofCbor? : (levels : Nat) → Cbor → Option Proto
  | 0, _ => none
  | k + 1, x => do
    let child (x : Cbor) : Option (Option Proto) :=
      if x.isNull then some none else (ofCbor? k x).map some
    let fs ← Cbor.record? x
    return {
      source := ← Cbor.field fs 1 Cbor.text?
      line := ← Cbor.field fs 2 Cbor.int?
      lastLine := ← Cbor.field fs 3 Cbor.int?
      params := ← Cbor.field fs 4 Cbor.int?
      isVararg := ← Cbor.field fs 5 Cbor.bool?
      stack := ← Cbor.field fs 6 Cbor.int?
      code := (← Cbor.field fs 7 (Cbor.list? (Cbor.nat? 0x100000000))).map fun ws =>
        (ws.map fun w => (⟨UInt32.ofNat w⟩ : Instr)).toArray
      constants := (← Cbor.field fs 8 (Cbor.list? Constant.ofCbor?)).map (·.toArray)
      protos := ← Cbor.field fs 9 (Cbor.list? child)
      upvalues := ← Cbor.field fs 10 (Cbor.list? Upvalue.ofCbor?)
      lines := ((← Cbor.field fs 11 (Cbor.list? Cbor.int?)).getD []).toArray
      locals := (← Cbor.field fs 12 (Cbor.list? LocalVar.ofCbor?)).getD [] }

/-- What a function is recognised by: the digest of its record. Functions that differ in debug
information only have different digests; without it they have the same. -/
def digest (p : Proto) : Bytes :=
  sha256 p.toCbor.encode

end Proto

/-! ## Images -/

/-- Why a text is not an image that can be used. -/
inductive ImageError where
  | notAnImage
  | malformed
  | version (n : Int)
  | noMain

def ImageError.message : ImageError → Bytes
  | .notAnImage => bytes "vm: not a compiled image"
  | .malformed => bytes "vm: unmarshal image"
  | .version n => bytes "vm: unsupported image version " ++ Bytes.ofInt n
  | .noMain => bytes "vm: image has no main function"

namespace Image

def magic : Bytes := 0x1b :: bytes "Luma"

def version : Int := 1

def encode (p : Proto) : Bytes :=
  magic ++ (Cbor.ofFields [(1, some (.ofInt version)), (2, some p.toCbor)]).encode

def fields? (x : Cbor) : Option (Int × Option Proto) := do
  let main (x : Cbor) : Option (Option Proto) :=
    if x.isNull then some none else (Proto.ofCbor? Cbor.maxLevels x).map some
  let fs ← Cbor.record? x
  return (← Cbor.field fs 1 Cbor.int?, ← Cbor.field fs 2 main)

def decode (s : Bytes) : Except ImageError Proto :=
  if !s.startsWith magic then .error .notAnImage
  else
    match (Cbor.decode? (s.drop magic.length)).bind fields? with
    | none => .error .malformed
    | some (n, main) =>
      if n ≠ version then .error (.version n)
      else
        match main with
        | none => .error .noMain
        | some p => .ok p

end Image

end RegisterCompiler
