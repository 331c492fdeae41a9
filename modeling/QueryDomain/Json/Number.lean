import QueryDomain.Json.Basic
import QueryDomain.Binary64.Scaling

/-! Numbers as JSON writes them, and what they stand for. The digits of a number go into a
significand of 64 bits, as far as they fit. -/
namespace QueryDomain

structure NumberLiteral where
  negative : Bool
  whole : List Char
  fraction : List Char
  exponent : Option Int

namespace NumberLiteral

def wholeDigits? : List Char → Option (List Char × List Char)
  | '0' :: rest => some (['0'], rest)
  | cs =>
    let (digits, rest) := cs.span Char.isDigit
    if digits.isEmpty then none else some (digits, rest)

def fractionDigits? : List Char → Option (List Char × List Char)
  | '.' :: rest =>
    let (digits, rest) := rest.span Char.isDigit
    if digits.isEmpty then none else some (digits, rest)
  | cs => some ([], cs)

def exponentPart? : List Char → Option (Option Int × List Char)
  | [] => some (none, [])
  | c :: rest =>
    if c ≠ 'e' ∧ c ≠ 'E' then some (none, c :: rest)
    else
      let (down, rest) := match rest with
        | '-' :: rest => (true, rest)
        | '+' :: rest => (false, rest)
        | rest => (false, rest)
      let (digits, rest) := rest.span Char.isDigit
      let n : Int := Text.digitsValue digits
      if digits.isEmpty then none else some (some (if down then -n else n), rest)

def read? (cs : List Char) : Option (NumberLiteral × List Char) := do
  let (negative, cs) := match cs with
    | '-' :: cs => (true, cs)
    | cs => (false, cs)
  let (whole, cs) ← wholeDigits? cs
  let (fraction, cs) ← fractionDigits? cs
  let (exponent, cs) ← exponentPart? cs
  return (⟨negative, whole, fraction, exponent⟩, cs)

def significandLimit : Nat := 0x10000000000000000

/-- Appends digits as long as the significand stays below its limit; the first one that does not
fit is left over, with all that follow it. -/
def append (significand : Nat) : List Char → Nat × List Char
  | [] => (significand, [])
  | c :: cs =>
    let next := 10 * significand + Text.digitsValue [c]
    if next < significandLimit then append next cs else (significand, c :: cs)

/-- A whole number that fits is an integer if 64 bits hold it with its sign; minus zero is not. Of
the digits that do not fit, those before the point count as zeros and those behind it not at all. -/
def value? (n : NumberLiteral) : Option Json :=
  let (head, beyond) := append 0 n.whole
  if n.fraction.isEmpty && n.exponent.isNone && beyond.isEmpty &&
      (!n.negative || (head != 0 && decide (head ≤ 0x8000000000000000))) then
    some (.integer (if n.negative then -(head : Int) else head))
  else
    let (significand, unread) := append head n.fraction
    let taken := n.fraction.length - unread.length
    let exponent : Int := n.exponent.getD 0 + beyond.length - taken
    (Binary64.ofScaled? n.negative significand exponent).map .float

end NumberLiteral

end QueryDomain
