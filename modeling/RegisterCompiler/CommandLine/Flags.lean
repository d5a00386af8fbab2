import RegisterCompiler.Text.Quoted

/-!
# Flags

A flag starts with one dash or two; its value follows after an equals sign or, for flags that are not
switches, as the next argument. Flags end at the first argument that is none, or after two dashes alone.
-/

namespace RegisterCompiler

structure Settings where
  verbose : Bool := false
  listing : Bool := false
  output : Bytes := []
  parseOnly : Bool := false
  strip : Bool := false
  serve : Bool := false
  inputs : List Bytes := []

inductive FlagStop where
  | help
  | badFlag (argument : Bytes)
  | undefined (name : Bytes)
  | badSwitch (value name : Bytes)
  | noValue (name : Bytes)

def FlagStop.message? : FlagStop → Option Bytes
  | .help => none
  | .badFlag argument => some (bytes "bad flag syntax: " ++ argument)
  | .undefined name => some (bytes "flag provided but not defined: -" ++ name)
  | .badSwitch value name =>
    some (bytes "invalid boolean value " ++ Text.quoted value ++ bytes " for -" ++ name ++ bytes ": parse error")
  | .noValue name => some (bytes "flag needs an argument: -" ++ name)

inductive Flag where
  | switch (set : Bool → Settings → Settings)
  | value (set : Bytes → Settings → Settings)

def flagNamed? (name : Bytes) : Option Flag :=
  if name == bytes "v" then some (.switch fun b s => { s with verbose := b })
  else if name == bytes "l" then some (.switch fun b s => { s with listing := b })
  else if name == bytes "o" then some (.value fun v s => { s with output := v })
  else if name == bytes "p" then some (.switch fun b s => { s with parseOnly := b })
  else if name == bytes "s" then some (.switch fun b s => { s with strip := b })
  else if name == bytes "lsp" then some (.switch fun b s => { s with serve := b })
  else none

def switchValue? (s : Bytes) : Option Bool :=
  if ["1", "t", "T", "TRUE", "true", "True"].any (bytes · == s) then some true
  else if ["0", "f", "F", "FALSE", "false", "False"].any (bytes · == s) then some false
  else none

inductive Argument where
  | plain
  | dashes
  | flag (name : Bytes) (value : Option Bytes)
  | malformed

def splitValue (s : Bytes) : Bytes × Option Bytes :=
  match s.dropWhile (· != 61) with
  | [] => (s, none)
  | _ :: value => (s.takeWhile (· != 61), some value)

def Argument.of (s : Bytes) : Argument :=
  match s with
  | [45, 45] => .dashes
  | 45 :: c :: rest =>
    let body := if c == 45 then rest else c :: rest
    match body with
    | [] => .malformed
    | d :: _ =>
      if d == 45 || d == 61 then .malformed
      else
        let (name, value) := splitValue body
        .flag name value
  | _ => .plain

def parseFrom (s : Settings) : List Bytes → Except FlagStop Settings
  | [] => .ok s
  | a :: rest =>
    match Argument.of a with
    | .plain => .ok { s with inputs := a :: rest }
    | .dashes => .ok { s with inputs := rest }
    | .malformed => .error (.badFlag a)
    | .flag name value =>
      match flagNamed? name with
      | none =>
        if name == bytes "h" || name == bytes "help" then .error .help
        else .error (.undefined name)
      | some (.switch set) =>
        match value with
        | none => parseFrom (set true s) rest
        | some v =>
          match switchValue? v with
          | some b => parseFrom (set b s) rest
          | none => .error (.badSwitch v name)
      | some (.value set) =>
        match value, rest with
        | some v, rest => parseFrom (set v s) rest
        | none, v :: rest => parseFrom (set v s) rest
        | none, [] => .error (.noValue name)

def parseFlags (args : List Bytes) : Except FlagStop Settings :=
  parseFrom {} args

end RegisterCompiler
