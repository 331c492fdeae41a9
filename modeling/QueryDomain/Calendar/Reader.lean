import QueryDomain.Calendar.Basic

/-! Reading days and timestamps. Typed forms are lenient: white space may stand before a number, and
leading zeros may be missing. The interchange form with an offset is strict. -/
namespace QueryDomain.Calendar

/-- A scanner reads from the front and returns what follows. -/
abbrev Scan (α : Type) := List Char → Option (α × List Char)

def literal (c : Char) : Scan Unit
  | x :: rest => if x = c then some ((), rest) else none
  | [] => none

def number (limit : Nat) : Scan Nat := fun cs =>
  let digits := (cs.takeWhile Char.isDigit).take limit
  if digits.isEmpty then none else some (Text.digitsValue digits, cs.drop digits.length)

def skipBlanks (cs : List Char) : List Char := cs.dropWhile Text.isBlank

def component : Scan Nat := fun cs => number 2 (skipBlanks cs)

/-- With a sign a year may have any number of digits, without one at most four. -/
def year : Scan Int := fun cs =>
  match skipBlanks cs with
  | '-' :: rest => (number rest.length rest).map fun (n, rest) => (-(n : Int), rest)
  | '+' :: rest => (number rest.length rest).map fun (n, rest) => ((n : Int), rest)
  | rest => (number 4 rest).map fun (n, rest) => ((n : Int), rest)

/-- Nanoseconds from the digits after a point; those past the ninth are dropped. -/
def fraction : Scan Nat := fun cs =>
  let digits := cs.takeWhile Char.isDigit
  if digits.isEmpty then none
  else
    let kept := digits.take 9
    some (Text.digitsValue kept * Nat.pow 10 (9 - kept.length), cs.dropWhile Char.isDigit)

def optionalFraction : Scan Nat
  | '.' :: rest => fraction rest
  | rest => some (0, rest)

def day : Scan Date := fun cs => do
  let (y, cs) ← year cs
  let (_, cs) ← literal '-' cs
  let (m, cs) ← component cs
  let (_, cs) ← literal '-' cs
  let (d, cs) ← component cs
  return (← Date.of? y m d, cs)

def clock : Scan TimeOfDay := fun cs => do
  let (h, cs) ← component cs
  let (_, cs) ← literal ':' cs
  let (m, cs) ← component cs
  let (_, cs) ← literal ':' cs
  let (s, cs) ← component cs
  let (n, cs) ← optionalFraction cs
  return (← TimeOfDay.ofClock? h m s n, cs)

def complete {α : Type} : Option (α × List Char) → Option α
  | some (a, []) => some a
  | _ => none

def blankSeparated (cs : List Char) : Option Timestamp := do
  let (date, cs) ← day cs
  let time ← complete (clock (skipBlanks cs))
  return ⟨date, time⟩

def letterSeparated (cs : List Char) : Option Timestamp := do
  let (date, cs) ← day cs
  let (_, cs) ← literal 'T' cs
  let time ← complete (clock cs)
  return ⟨date, time⟩

def fixedNumber (count : Nat) : Scan Nat := fun cs =>
  let digits := cs.take count
  if digits.length = count ∧ digits.all Char.isDigit then
    some (Text.digitsValue digits, cs.drop count)
  else none

def separator : Scan Unit
  | c :: rest => if c = 'T' ∨ c = 't' ∨ c = ' ' then some ((), rest) else none
  | [] => none

/-- Minutes ahead of universal time; also the typographic minus sign is one. -/
def offset : Scan Int
  | [] => none
  | c :: rest => do
    if c = 'Z' ∨ c = 'z' then
      return (0, rest)
    let sign : Int ←
      if c = '+' then some 1
      else if c = '-' ∨ c.toNat = 0x2212 then some (-1)
      else none
    let (h, rest) ← fixedNumber 2 rest
    let (_, rest) ← literal ':' rest
    let (m, rest) ← fixedNumber 2 rest
    if 59 < m ∨ 23 < h then none
    else return (sign * (h * 60 + m : Nat), rest)

/-- The interchange form, moved to universal time. -/
def withOffset (cs : List Char) : Option Timestamp := do
  let (y, cs) ← fixedNumber 4 cs
  let (_, cs) ← literal '-' cs
  let (mo, cs) ← fixedNumber 2 cs
  let (_, cs) ← literal '-' cs
  let (d, cs) ← fixedNumber 2 cs
  let (_, cs) ← separator cs
  let (h, cs) ← fixedNumber 2 cs
  let (_, cs) ← literal ':' cs
  let (mi, cs) ← fixedNumber 2 cs
  let (_, cs) ← literal ':' cs
  let (s, cs) ← fixedNumber 2 cs
  let (n, cs) ← optionalFraction cs
  let shift ← complete (offset cs)
  let date ← Date.of? y mo d
  let time ← TimeOfDay.ofClock? h mi s n
  (Timestamp.mk date time).minusMinutes? shift

end QueryDomain.Calendar

namespace QueryDomain

open Calendar

def Date.read? (s : String) : Option Date :=
  complete (Calendar.day (Text.trimChars s.toList))

def Timestamp.read? (s : String) : Option Timestamp :=
  let cs := Text.trimChars s.toList
  blankSeparated cs <|> letterSeparated cs <|> withOffset cs

end QueryDomain
