import RegisterCompiler.Code.ChunkName
import RegisterCompiler.Source.Token

/-!
# Compile errors
-/

namespace RegisterCompiler

inductive Counted where
  | constants
  | locals
  | upvalues
  | functions
deriving DecidableEq

def Counted.text : Counted → Bytes
  | .constants => bytes "constants"
  | .locals => bytes "local variables"
  | .upvalues => bytes "upvalues"
  | .functions => bytes "functions"

inductive Cause where
  | scan (fault : ScanFault)
  | expected (what : Token.Kind)
  /-- A token must stand here that closes what `who` opened on an earlier line. -/
  | expectedToClose (what who : Token.Kind) (line : Nat)
  | nameOrDotsExpected
  | assignOrInExpected
  | argumentsExpected
  | unexpectedSymbol
  /-- An expression that is neither a call nor assigned to stands as a statement, or something is
  assigned to that is no variable. -/
  | syntaxError
  | varargOutside
  | tooManyLevels
  | tooMany (what : Counted) (limit : Int) (definedAt : Option Int)
  | tooComplex
  | constructorTooLong
  | controlTooLong
  | labelDefined (name : Bytes) (line : Int)
  | intoScope (label : Bytes) (line : Int) (local_ : Bytes)
  | breakOutside (line : Int)
  | noLabel (name : Bytes) (line : Int)

def Cause.message : Cause → Bytes
  | .scan f => f.message
  | .expected k => k.quoted ++ bytes " expected"
  | .expectedToClose what who line =>
    what.quoted ++ bytes " expected (to close " ++ who.quoted ++ bytes " at line " ++
      Bytes.ofNat line ++ bytes ")"
  | .nameOrDotsExpected => bytes "<name> or '...' expected"
  | .assignOrInExpected => bytes "'=' or 'in' expected"
  | .argumentsExpected => bytes "function arguments expected"
  | .unexpectedSymbol => bytes "unexpected symbol"
  | .syntaxError => bytes "syntax error"
  | .varargOutside => bytes "cannot use '...' outside a vararg function"
  | .tooManyLevels => bytes "chunk has too many syntax levels"
  | .tooMany what limit definedAt =>
    bytes "too many " ++ what.text ++ bytes " (limit is " ++ Bytes.ofInt limit ++ bytes ") in " ++
      match definedAt with
      | none => bytes "main function"
      | some line => bytes "function at line " ++ Bytes.ofInt line
  | .tooComplex => bytes "function or expression too complex"
  | .constructorTooLong => bytes "constructor too long"
  | .controlTooLong => bytes "control structure too long"
  | .labelDefined name line =>
    bytes "label '" ++ name ++ bytes "' already defined on line " ++ Bytes.ofInt line
  | .intoScope label line v =>
    bytes "<goto " ++ label ++ bytes "> at line " ++ Bytes.ofInt line ++
      bytes " jumps into the scope of local '" ++ v ++ bytes "'"
  | .breakOutside line =>
    bytes "<break> at line " ++ Bytes.ofInt line ++ bytes " not inside a loop"
  | .noLabel name line =>
    bytes "no visible label '" ++ name ++ bytes "' for <goto> at line " ++ Bytes.ofInt line

/-- What stopped reading: the cause, and the line and text of the token there. -/
structure SyntaxFault where
  cause : Cause
  line : Nat
  near : Bytes

structure CompileError where
  source : Bytes
  line : Int
  cause : Cause
  near : Bytes

def CompileError.message (e : CompileError) : Bytes :=
  shownChunk e.source ++ bytes ":" ++ Bytes.ofInt e.line ++ bytes ": " ++ e.cause.message ++
    (if e.near.isEmpty then [] else bytes " near " ++ e.near)

end RegisterCompiler
