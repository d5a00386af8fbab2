import RegisterCompiler.Compile
import RegisterCompiler.Editor.Text

/-!
# Editor sessions

A session answers the requests of an editor about the documents that are open in it.
-/

namespace RegisterCompiler.Editor

def serverName : Bytes := bytes "luma-lsp"

def serverVersion : Bytes := bytes "0.1.0"

/-! ## Diagnostics -/

/-- Something wrong on one line of a text, up to its last character. -/
structure Diagnostic where
  line : Nat
  width : Nat
  message : Bytes

/-- A diagnostic that spans the line with number `line`, counted from 1; a number outside the text is
taken for the nearest inside. The line ends before its carriage returns. -/
def Diagnostic.ofLine (text : Bytes) (line : Int) (message : Bytes) : Diagnostic :=
  let all := lines text
  let k := (max 1 (min line all.length)).toNat - 1
  let shown := (all[k]?.getD []).reverse.dropWhile (· == Bytes.cr)
  ⟨k, shown.length, message⟩

/-- The diagnostic for a failure. One that is no fault of the text is shown on its first line. -/
def Diagnostic.ofFailure (text : Bytes) : Failure → Diagnostic
  | .error e =>
    .ofLine text e.line
      (e.cause.message ++ if e.near.isEmpty then [] else bytes " near " ++ e.near)
  | .broken i => .ofLine text 1 (bytes "compiler: internal error: " ++ i.message)

def diagnose (name text : Bytes) : Except Diagnostic Proto :=
  match compile text name false with
  | .ok p => .ok p
  | .error e => .error (.ofFailure text e)

def documentName (uri : Bytes) : Bytes :=
  let last := (uri.reverse.takeWhile (· != '/'.toUInt8)).reverse
  bytes "@" ++ last

/-! ## Completion -/

inductive Completion.Kind where
  | keyword
  | name
deriving DecidableEq

/-- A word that is proposed for the one at the cursor. -/
structure Completion where
  word : Bytes
  kind : Completion.Kind
deriving DecidableEq

def maxCompletions : Nat := 100

/-- The names among tokens that go on after `start`, each at its first place. The names found so far
are in `acc`, latest first. -/
def namesAfter (start : Bytes) : List Token → (acc : List Bytes) → List Bytes
  | [], acc => acc.reverse
  | t :: rest, acc =>
    if t.kind = .name ∧ t.literal ≠ start ∧ t.literal.startsWith start ∧ !acc.contains t.literal then
      namesAfter start rest (t.literal :: acc)
    else namesAfter start rest acc

/-- The reserved words and the names of the text, up to its first fault, that start with `start`. -/
def complete (text start : Bytes) : List Completion :=
  let words := keywords.filter fun w => w.startsWith start
  let names := namesAfter start (scan text) []
  (words.map (Completion.mk · .keyword) ++ names.map (Completion.mk · .name)).take maxCompletions

/-! ## Hover -/

def localRanges (p : Proto) (name : Bytes) : List Bytes :=
  (p.walk.filter fun q => q.locals.any fun v => v.name == name).map fun q =>
    if q.line = 0 then bytes "main chunk" else bytes "function at line " ++ Bytes.ofInt q.line

def globalName? (p : Proto) (i : Instr) : Option Bytes := do
  let (up, key) ←
    match i.op? with
    | some .getTabUp => some (i.b, i.c)
    | some .setTabUp => some (i.a, i.b)
    | _ => none
  let u ← p.upvalueList[up]?
  if u.name ≠ Gen.envName ∨ !isConstantRK key then none
  else
    match (← p.constantArray[(constantOfRK key).toNat]?).key with
    | .string s => some s
    | _ => none

def usesGlobal (p : Proto) (name : Bytes) : Bool :=
  p.walk.any fun q => q.codeArray.any fun i => globalName? q i == some name

/-- What a word is: reserved, or a local or global variable of the compiled text. -/
def hover (p : Option Proto) (word : Bytes) : Option Bytes :=
  let shown := bytes "**" ++ word ++ bytes "**"
  if isKeyword word then some (shown ++ bytes " (keyword)")
  else
    match p with
    | none => none
    | some p =>
      match localRanges p word with
      | [] => if usesGlobal p word then some (shown ++ bytes ": global") else none
      | scopes => some (shown ++ bytes ": local in " ++ Bytes.intercalate (bytes ", ") scopes)

/-! ## Sessions -/

structure Document where
  text : Bytes
  proto : Option Proto

structure Session where
  documents : List (Bytes × Document)

namespace Session

def empty : Session := ⟨[]⟩

def lookup (s : Session) (uri : Bytes) : Option Document :=
  (s.documents.find? fun d => d.1 == uri).map (·.2)

def remove (s : Session) (uri : Bytes) : Session :=
  ⟨s.documents.filter fun d => d.1 != uri⟩

def insert (s : Session) (uri : Bytes) (d : Document) : Session :=
  ⟨(uri, d) :: (s.remove uri).documents⟩

/-- The document at an address gets a new text. If it does not compile, the compilation before stays,
and the result is what is wrong. -/
def update (s : Session) (uri text : Bytes) : Session × List Diagnostic :=
  match diagnose (documentName uri) text with
  | .ok p => (s.insert uri ⟨text, some p⟩, [])
  | .error d => (s.insert uri ⟨text, (s.lookup uri).bind (·.proto)⟩, [d])

end Session

/-- A change of a document. Only whole texts are taken; a change of a part has no effect. -/
inductive Change where
  | whole (text : Bytes)
  | part (text : Bytes)

inductive Request where
  | start
  | started
  | setTrace
  | shutdown
  | didOpen (uri text : Bytes)
  | didChange (uri : Bytes) (changes : List Change)
  | didClose (uri : Bytes)
  | complete (uri : Bytes) (pos : Position)
  | hover (uri : Bytes) (pos : Position)

structure Abilities where
  name : Bytes
  version : Bytes
  openClose : Bool
  /-- How it is told of changes: 1 for whole texts. -/
  change : Nat
  completion : Bool
  hover : Bool

inductive Answer where
  | none
  | abilities (a : Abilities)
  | published (uri : Bytes) (diagnostics : List Diagnostic)
  | completions (items : List Completion)
  | hover (text : Bytes)

def abilities : Abilities where
  name := serverName
  version := serverVersion
  openClose := true
  change := 1
  completion := true
  hover := true

namespace Session

def publish (s : Session) (uri text : Bytes) : Session × Answer :=
  let (s, ds) := s.update uri text
  (s, .published uri ds)

def completeAt (s : Session) (uri : Bytes) (pos : Position) : Answer :=
  match s.lookup uri with
  | none => .none
  | some d =>
    match wordBefore d.text pos with
    | [] => .none
    | start => .completions (complete d.text start)

def hoverAt (s : Session) (uri : Bytes) (pos : Position) : Answer :=
  match s.lookup uri with
  | none => .none
  | some d =>
    match wordAround d.text pos with
    | [] => .none
    | word =>
      match Editor.hover d.proto word with
      | some text => .hover text
      | none => .none

/-- The session after a request, and the answer. Of several changes the last one counts. -/
def handle (s : Session) : Request → Session × Answer
  | .start => (s, .abilities Editor.abilities)
  | .started => (s, .none)
  | .setTrace => (s, .none)
  | .shutdown => (empty, .none)
  | .didOpen uri text => s.publish uri text
  | .didChange uri changes =>
    match changes.getLast? with
    | some (.whole text) => s.publish uri text
    | _ => (s, .none)
  | .didClose uri => (s.remove uri, .published uri [])
  | .complete uri pos => (s, s.completeAt uri pos)
  | .hover uri pos => (s, s.hoverAt uri pos)

end Session

end RegisterCompiler.Editor
