import RegisterCompiler.Bytes

/-!
# Dates and times

`isDateTime` tells whether a text is a date, a time of day, or a date and a time with or without an
offset from universal time. Seconds may be left out.
-/

namespace RegisterCompiler.Toml

/-- The number that the first `n` bytes write with decimal digits, and what follows them. -/
def digits? (n : Nat) (s : Bytes) : Option (Nat × Bytes) :=
  let ds := s.take n
  if ds.length == n && ds.all Bytes.isDigit then
    some (ds.foldl (fun x d => x * 10 + (d.toNat - 48)) 0, s.drop n)
  else none

def after? (c : UInt8) : Bytes → Option Bytes
  | [] => none
  | d :: s => if d == c then some s else none

def daysIn (year month : Nat) : Nat :=
  if month == 2 then
    if year % 4 == 0 && (year % 100 != 0 || year % 400 == 0) then 29 else 28
  else if [4, 6, 9, 11].contains month then 30
  else 31

def date? (s : Bytes) : Option Bytes := do
  let (year, s) ← digits? 4 s
  let (month, s) ← digits? 2 (← after? 45 s)
  let (day, s) ← digits? 2 (← after? 45 s)
  guard (1 ≤ month ∧ month ≤ 12 ∧ 1 ≤ day ∧ day ≤ daysIn year month)
  return s

def time? (s : Bytes) : Option Bytes := do
  let (hour, s) ← digits? 2 s
  let (minute, s) ← digits? 2 (← after? 58 s)
  guard (hour < 24 ∧ minute < 60)
  match after? 58 s with
  | none => return s
  | some s =>
    let (second, s) ← digits? 2 s
    guard (second < 60)
    match after? 46 s with
    | none => return s
    | some s =>
      guard ((s.head?.map Bytes.isDigit).getD false)
      return s.dropWhile Bytes.isDigit

def isOffset (s : Bytes) : Bool :=
  match s with
  | [] => true
  | [90] => true
  | c :: s =>
    (c == 43 || c == 45) &&
      ((do
        let (hours, s) ← digits? 2 s
        let (minutes, s) ← digits? 2 (← after? 58 s)
        guard (hours ≤ 24 ∧ minutes ≤ 60)
        return s.isEmpty).getD false)

/-- A space or a small letter in place of the letter between date and time or of that for universal
time. -/
def dateTimeLetter (c : UInt8) : UInt8 :=
  if c == 122 then 90 else if c == 116 || c == 32 then 84 else c

def isDateTime (s : Bytes) : Bool :=
  let s := s.map dateTimeLetter
  match date? s with
  | some [] => true
  | some s => ((after? 84 s).bind time?).any isOffset
  | none => (time? s).any (·.isEmpty)

end RegisterCompiler.Toml
