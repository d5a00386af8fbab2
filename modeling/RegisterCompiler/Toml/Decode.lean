import RegisterCompiler.Toml

/-!
# Records from tables

A record has fields with names. An entry of a table belongs to the field of its name or, failing
that, to one whose name differs in case only.
-/

namespace RegisterCompiler.Toml

def fieldNamed? (fields : List Bytes) (name : Bytes) : Option Bytes :=
  if fields.contains name then some name else fields.find? (sameName · name)

/-- A field's value: `old` unless there is an entry for it. Every entry must have the right type;
the last one counts. -/
def Table.decode? {α : Type} (t : Table) (fields : List Bytes) (field : Bytes)
    (one : α → Toml → Option α) (old : α) : Option α :=
  t.foldlM (fun a (name, v) => if fieldNamed? fields name == some field then one a v else some a) old

def asString? (_ : Bytes) : Toml → Option Bytes
  | .string s => some s
  | _ => none

def asBoolean? (_ : Bool) : Toml → Option Bool
  | .boolean b => some b
  | _ => none

def asStrings? (_ : List Bytes) : Toml → Option (List Bytes)
  | .array items => items.mapM (asString? [])
  | _ => none

def asTable? : Toml → Option Table
  | .table t => some t
  | _ => none

def asTables? : Toml → Option (List Table)
  | .tables ts => some ts
  | .array items => items.mapM asTable?
  | _ => none

end RegisterCompiler.Toml
