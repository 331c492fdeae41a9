import QueryDomain.Binary64.Basic

/-! The double nearest to a fraction, to an integer and to a decimal. A tie goes to the even
significand, and what is too large becomes infinite. -/
namespace QueryDomain.Binary64

def roundDiv (num den : Nat) : Nat :=
  let quotient := num / den
  let excess := 2 * (num % den)
  if excess < den then quotient
  else if den < excess then quotient + 1
  else quotient + quotient % 2

def scaled (num den : Nat) (q : Int) : Nat × Nat :=
  if 0 ≤ q then (num, den * Nat.pow 2 q.toNat) else (num * Nat.pow 2 (-q).toNat, den)

def exponentFor (num den : Nat) : Int :=
  let estimate : Int := Nat.log2 num - Nat.log2 den - 52
  let (n, d) := scaled num den estimate
  max (if n / d < fractionLimit then estimate - 1 else estimate) (-1074)

/-- The double nearest to `num / den`. Adding the significand to the word of its exponent lets a
significand that was rounded up carry into the exponent. -/
def ofRatio (negative : Bool) (num den : Nat) : Binary64 :=
  if num = 0 then zero negative
  else
    let q := exponentFor num den
    let (n, d) := scaled num den q
    let word := (q + 1074).toNat * fractionLimit + roundDiv n d
    if infinityWord ≤ word then infinity negative else ⟨negative, word⟩

def ofInt (n : Int) : Binary64 := ofRatio (n < 0) n.natAbs 1

/-- The double nearest to `digits * 10 ^ exponent`. Beyond 400 places on either side of the point
the answer does not depend on the digits. -/
def ofDecimal (negative : Bool) (digits : Nat) (exponent : Int) : Binary64 :=
  let places : Int := (Nat.toDigits 10 digits).length + exponent
  if digits = 0 ∨ places < -400 then zero negative
  else if 400 < places then infinity negative
  else if 0 ≤ exponent then ofRatio negative (digits * Nat.pow 10 exponent.toNat) 1
  else ofRatio negative digits (Nat.pow 10 (-exponent).toNat)

end QueryDomain.Binary64
