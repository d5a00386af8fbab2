import RegisterCompiler.Toml.Scalar

/-!
# Reading TOML documents

`Document.read?` gives the tables of a text and the keys it defines, in their order.

A key is defined once, with these exceptions. A table that is there only because something below it
was defined may get a header of its own. Dotted keys and tables between braces add to tables that are
there already; but if the key has held an array, or is about to hold one, the new value takes the
place of the old one.
-/

namespace RegisterCompiler.Toml

structure Document where
  root : Table
  defined : List Key

structure Reading where
  rest : Bytes
  root : Table := []
  defined : List Key := []
  implied : List Key := []
  arrays : List Key := []
  context : Key := []

abbrev Reader := StateT Reading Option

namespace Reader

/-! ## Tables -/

/-- The table with another one in place of that at a key. Of tables under one header it is the
last. -/
def alter (change : Table → Option Table) : Key → Table → Option Table
  | [], t => change t
  | name :: key, t =>
    match t.get? name with
    | some (.table sub) => (alter change key sub).map fun sub => t.set name (.table sub)
    | some (.tables subs) =>
      (alter change key (subs.getLastD [])).map fun sub =>
        t.set name (.tables (subs.dropLast ++ [sub]))
    | _ => none

def atTable (key : Key) (change : Table → Option Table) : Reader Unit := fun s =>
  (alter change key s.root).map fun root => ((), { s with root })

def valueAt? (key : Key) (name : Bytes) : Reader (Option Toml) := fun s =>
  let rec find : Key → Table → Option (Option Toml)
    | [], t => some (t.get? name)
    | n :: key, t =>
      match t.get? n with
      | some (.table sub) => find key sub
      | some (.tables subs) => find key (subs.getLastD [])
      | _ => none
  (find key s.root).map (·, s)

def imply (key : Key) : Reader Unit :=
  modify fun s => { s with implied := key :: s.implied.filter (· != key) }

def settle (key : Key) : Reader Unit :=
  modify fun s => { s with implied := s.implied.filter (· != key) }

def noteArray (key : Key) (isArray : Bool) : Reader Unit :=
  modify fun s =>
    let others := s.arrays.filter (· != key)
    { s with arrays := if isArray then key :: others else others }

/-- Notes whether the value of a key is an array. An empty name counts for the table it is in, unless
that is the whole document. -/
def noteValue (key : Key) (isArray : Bool) : Reader Unit :=
  noteArray (if key.length > 1 && key.getLastD [] == [] then key.dropLast else key) isArray

def define (key : Key) : Reader Unit :=
  modify fun s => { s with defined := key :: s.defined }

/-- Gives a name of the table at `key` its value. A name that has one already must be implied; it
keeps what it has unless an array is noted for it. -/
def setValue (key : Key) (name : Bytes) (value : Toml) : Reader Unit := do
  let whole := key ++ [name]
  let isNew := (← valueAt? key name).isNone
  unless isNew do
    guard ((← get).implied.contains whole)
    settle whole
  if isNew || (← get).arrays.contains whole then
    atTable key fun t => some (t.set name value)

/-- The tables on the way to a key are there; those that were not are implied. -/
def reach (key : Key) : Reader Unit :=
  key.dropLast.foldlM (fun (done : Key) name => do
    if (← valueAt? done name).isNone then
      imply (done ++ [name])
      atTable done fun t => some (t.set name (.table []))
    return done ++ [name]) [] *> pure ()

/-- Opens the table at a key: one more under its header, or the one that it names. -/
def openTable (key : Key) (more : Bool) : Reader Unit := do
  reach key
  let parent := key.dropLast
  let name := key.getLastD []
  if more then
    match ← valueAt? parent name with
    | none => atTable parent fun t => some (t.set name (.tables [[]]))
    | some (.tables subs) => atTable parent fun t => some (t.set name (.tables (subs ++ [[]])))
    | some _ => failure
  else setValue parent name (.table [])
  modify fun s => { s with context := key }

def enter : Key → Reader Unit
  | [] => pure ()
  | name :: names => do
    let key := (← get).context ++ [name]
    imply key
    openTable key false
    enter names

/-! ## Text -/

def peek? : Reader (Option UInt8) :=
  return (← get).rest.head?

def skip (n : Nat) : Reader Unit :=
  modify fun s => { s with rest := s.rest.drop n }

def skipWhile (p : UInt8 → Bool) : Reader Unit :=
  modify fun s => { s with rest := s.rest.dropWhile p }

def take {α : Type} (f : Bytes → Option (α × Bytes)) : Reader α := fun s =>
  (f s.rest).map fun (a, rest) => (a, { s with rest })

def expect (c : UInt8) : Reader Unit :=
  take fun s => (after? c s).map ((), ·)

/-- Goes on past blanks, ends of lines and comments; `fuel` bounds the number of comments. -/
def skipSpace : (fuel : Nat) → Reader Unit
  | 0 => failure
  | k + 1 => do
    skipWhile fun c => isBlank c || isBreak c
    if (← peek?) == some 35 then
      skipWhile (!isBreak ·)
      skipSpace k

def space : Reader Unit := do
  skipSpace ((← get).rest.length + 1)

def lineEnd : Reader Unit := do
  skipWhile isBlank
  if (← peek?) == some 35 then skipWhile (!isBreak ·)
  match ← peek? with
  | none => pure ()
  | some c => guard (isBreak c)

def name : Reader Bytes := do
  skipWhile isBlank
  match ← peek? with
  | some 34 | some 39 => take shortString?
  | _ =>
    take fun s =>
      let n := s.takeWhile isBare
      if n.isEmpty then none else some (n, s.drop n.length)

def namesTo (last : UInt8) : (fuel : Nat) → Reader Key
  | 0 => failure
  | k + 1 => do
    let n ← name
    skipWhile isBlank
    match ← peek? with
    | none => failure
    | some c =>
      skip 1
      if c == 46 then return n :: (← namesTo last k)
      guard (c == last)
      return [n]

def key (last : UInt8) : Reader Key := do
  namesTo last ((← get).rest.length + 1)

def put : Key → Toml → Table → Option Table
  | [], _, _ => none
  | [n], v, t => some (t.set n v)
  | n :: ns, v, t =>
    match t.get? n with
    | none => (put ns v []).map fun sub => t.set n (.table sub)
    | some (.table sub) => (put ns v sub).map fun sub => t.set n (.table sub)
    | some _ => none

mutual

def value : (fuel : Nat) → (key : Key) → (inArray : Bool) → Reader Toml
  | 0, _, _ => failure
  | k + 1, key, inArray => do
    skipWhile isBlank
    match ← peek? with
    | some 91 =>
      skip 1
      noteValue key true
      return .array (← items k key)
    | some 123 =>
      skip 1
      let outer := (← get).context
      imply key
      openTable key inArray
      let t ← entries k key []
      modify fun s => { s with context := outer }
      return .table t
    | _ => take scalar?

def items : (fuel : Nat) → (key : Key) → Reader (List Toml)
  | 0, _ => failure
  | k + 1, key => do
    space
    if (← peek?) == some 93 then
      skip 1
      return []
    let v ← value k key true
    space
    match ← peek? with
    | some 44 =>
      skip 1
      return v :: (← items k key)
    | some 93 =>
      skip 1
      return [v]
    | _ => failure

/-- The entries of a table between braces up to its end, after those of `t`; `home` is its key. -/
def entries : (fuel : Nat) → (home : Key) → (t : Table) → Reader Table
  | 0, _, _ => failure
  | k + 1, home, t => do
    space
    if (← peek?) == some 125 then
      skip 1
      return t
    let (names, v) ← entry k
    modify fun s => { s with context := home }
    let t ← put names v t
    space
    match ← peek? with
    | some 44 =>
      skip 1
      entries k home t
    | some 125 =>
      skip 1
      return t
    | _ => failure

/-- A key with its value, in the table of the context. The context afterwards is the table that
holds the value. -/
def entry : (fuel : Nat) → Reader (Key × Toml)
  | 0 => failure
  | k + 1 => do
    let names ← key 61
    enter names.dropLast
    let home := (← get).context
    let whole := home ++ [names.getLastD []]
    define whole
    let v ← value k whole false
    setValue home (names.getLastD []) v
    noteValue whole (v matches .array _)
    return (names, v)

end

def header : Reader Unit := do
  expect 91
  let more := (← peek?) == some 91
  if more then skip 1
  let names ← key 93
  if more then expect 93
  openTable names more
  noteArray names false
  define names

def lines : (fuel : Nat) → Reader Unit
  | 0 => failure
  | k + 1 => do
    space
    match ← peek? with
    | none => pure ()
    | some 91 =>
      header
      lineEnd
      lines k
    | some _ =>
      let outer := (← get).context
      let _ ← entry k
      modify fun s => { s with context := outer }
      lineEnd
      lines k

end Reader

/-! ## Characters -/

/-- No control characters are in the text other than tabs and ends of lines. -/
def controlsFit : Bytes → Bool
  | [] => true
  | 13 :: s => s.head? == some Bytes.lf && controlsFit s
  | c :: s => (c == 9 || c == 10 || (32 ≤ c.toNat && c != 127)) && controlsFit s

def dropMark : Bytes → Bytes
  | 0xff :: 0xfe :: s => s
  | 0xfe :: 0xff :: s => s
  | 0xef :: 0xbb :: 0xbf :: s => s
  | s => s

def Document.read? (text : Bytes) : Option Document := do
  let text := dropMark text
  guard (controlsFit text && Utf8.valid text)
  let (_, s) ← (Reader.lines (2 * text.length + 4)).run { rest := text }
  return ⟨s.root, s.defined.reverse⟩

end RegisterCompiler.Toml
