import QueryDomain.Binary64.Rounding
import QueryDomain.Text.Basic

/-! Decimal text of doubles: the fewest digits that read back, laid out in two ways, and the reader
of numbers typed by hand. -/
namespace QueryDomain.Binary64

/-- Which of two shortest decimals wins if the number lies halfway between them. -/
inductive Tie where
  | even
  | up
  deriving DecidableEq, Repr

/-- The shortest decimal of a number is `digits * 10 ^ exponent`. -/
structure Decimal where
  digits : Nat
  exponent : Int
  deriving DecidableEq, Repr

/-- The multiple of `10 ^ k` nearest to the number that still rounds to it, if there is one.
With the unit `2 ^ (exponent - 2)`, the numbers that round to `4 * m` lie between `4 * m - 2` and
`4 * m + 2`, or from `4 * m - 1` on where the spacing below is half of that above; the ends belong
to them if `m` is even. -/
def decimalAt? (tie : Tie) (x : Binary64) (k : Int) : Option Nat :=
  let m := x.significand
  let unit := x.exponent - 2
  let num := Nat.pow 2 unit.toNat * Nat.pow 10 (-k).toNat
  let den := Nat.pow 2 (-unit).toNat * Nat.pow 10 k.toNat
  let low := if m = fractionLimit ∧ -1074 < x.exponent then 4 * m - 1 else 4 * m - 2
  let high := 4 * m + 2
  let fits (d : Nat) : Bool :=
    if m % 2 = 0 then low * num ≤ d * den && d * den ≤ high * num
    else low * num < d * den && d * den < high * num
  let below := 4 * m * num / den
  let excess := 2 * (4 * m * num % den)
  let nearest :=
    if excess < den then below
    else if den < excess then below + 1
    else match tie with
      | .even => below + below % 2
      | .up => below + 1
  if fits nearest then some nearest
  else if fits below then some below
  else if fits (below + 1) then some (below + 1)
  else none

def stripZeros (fuel : Nat) (d : Decimal) : Decimal :=
  match fuel with
  | 0 => d
  | fuel + 1 =>
    if d.digits ≠ 0 ∧ d.digits % 10 = 0 then stripZeros fuel ⟨d.digits / 10, d.exponent + 1⟩ else d

def shortestFrom (tie : Tie) (x : Binary64) (k : Int) : Nat → Decimal
  | 0 => ⟨0, 0⟩
  | fuel + 1 =>
    match decimalAt? tie x k with
    | some d => stripZeros 20 ⟨d, k⟩
    | none => shortestFrom tie x (k - 1) fuel

/-- The shortest decimal that reads back as the finite number `x`. The first grid tried is coarser
than `x`, and twenty steps below it every grid is finer than the spacing around `x`. -/
def shortest (tie : Tie) (x : Binary64) : Decimal :=
  if x.isZero then ⟨0, 0⟩
  else
    let bits : Int := Nat.log2 x.significand + x.exponent
    shortestFrom tie x (bits * 30103 / 100000 + 1) 22

def Decimal.positional (d : Decimal) : String :=
  let digits := Nat.toDigits 10 d.digits
  if 0 ≤ d.exponent then .ofList (digits ++ List.replicate d.exponent.toNat '0')
  else
    let places := (-d.exponent).toNat
    if places < digits.length then
      .ofList (digits.take (digits.length - places) ++ '.' :: digits.drop (digits.length - places))
    else .ofList ('0' :: '.' :: List.replicate (places - digits.length) '0' ++ digits)

def Decimal.scientific (d : Decimal) : String :=
  let digits := Nat.toDigits 10 d.digits
  let power := d.exponent + digits.length - 1
  let mantissa := match digits with
    | [] => ""
    | [c] => String.singleton c
    | c :: cs => .ofList (c :: '.' :: cs)
  mantissa ++ (if power < 0 then "e-" else "e+") ++ toString power.natAbs

def sign (x : Binary64) : String := if x.negative then "-" else ""

def display (x : Binary64) : String :=
  if x.isNaN then "NaN"
  else if x.isFinite then x.sign ++ (shortest .up x).positional
  else x.sign ++ "inf"

/-- Text of a finite number in a document: always with a point or an exponent, positional from
`10 ^ -5` up to, but without, `10 ^ 16`. -/
def documentText (x : Binary64) : String :=
  let d := shortest .even x
  let power := d.exponent + (Nat.toDigits 10 d.digits).length - 1
  x.sign ++
    if -5 ≤ power ∧ power < 16 then
      if d.exponent < 0 then d.positional else d.positional ++ ".0"
    else d.scientific

def readUnsigned? (negative : Bool) (cs : List Char) : Option Binary64 :=
  let (whole, rest) := cs.span Char.isDigit
  let (fraction, rest) := match rest with
    | '.' :: rest => rest.span Char.isDigit
    | _ => ([], rest)
  let digits := Text.digitsValue (whole ++ fraction)
  let scale : Int := -(fraction.length : Int)
  if whole.isEmpty && fraction.isEmpty then none
  else match rest with
    | [] => some (ofDecimal negative digits scale)
    | e :: rest =>
      if e ≠ 'e' ∧ e ≠ 'E' then none
      else
        let (down, power) := match rest with
          | '-' :: power => (true, power)
          | '+' :: power => (false, power)
          | power => (false, power)
        if power.isEmpty || !power.all Char.isDigit then none
        else
          let n : Int := Text.digitsValue power
          some (ofDecimal negative digits (if down then scale - n else scale + n))

/-- Reads a typed number: an optional sign, then digits, or the name of an infinity or of the
number that is none, in any case. -/
def read? (s : String) : Option Binary64 :=
  let (negative, cs) := match s.toList with
    | '-' :: cs => (true, cs)
    | '+' :: cs => (false, cs)
    | cs => (false, cs)
  match cs.map Char.toLower with
  | ['i', 'n', 'f'] | ['i', 'n', 'f', 'i', 'n', 'i', 't', 'y'] => some (infinity negative)
  | ['n', 'a', 'n'] => some nan
  | _ => readUnsigned? negative cs

end QueryDomain.Binary64
