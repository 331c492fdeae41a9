/-! Double-precision numbers by sign and magnitude word. Order, equality and conversions are exact
integer arithmetic on the word; no floating-point operation is involved. -/
namespace QueryDomain

/-- `magnitude` is the bit pattern without the sign: the exponent above, 52 bits of fraction below.
Every word above that of infinity is not a number. -/
structure Binary64 where
  negative : Bool
  magnitude : Nat
  deriving DecidableEq, Repr

namespace Binary64

def fractionLimit : Nat := 0x10000000000000

def infinityWord : Nat := 0x7FF * fractionLimit

def nan : Binary64 := ⟨false, infinityWord + fractionLimit / 2⟩

def infinity (negative : Bool) : Binary64 := ⟨negative, infinityWord⟩

def zero (negative : Bool) : Binary64 := ⟨negative, 0⟩

def isNaN (x : Binary64) : Bool := infinityWord < x.magnitude

def isFinite (x : Binary64) : Bool := x.magnitude < infinityWord

def isZero (x : Binary64) : Bool := x.magnitude == 0

/-- Words grow with the numbers they stand for, so the signed word orders all numbers; both zeros
have the key 0. -/
def key (x : Binary64) : Int :=
  if x.negative then -(x.magnitude : Int) else x.magnitude

def same (x y : Binary64) : Bool :=
  if x.isNaN || y.isNaN then x.isNaN && y.isNaN else x.key == y.key

/-- Numeric order; what is not a number compares with nothing. -/
def compare? (x y : Binary64) : Option Ordering :=
  if x.isNaN || y.isNaN then none else some (compare x.key y.key)

/-- A finite magnitude is `significand * 2 ^ exponent`. -/
def significand (x : Binary64) : Nat :=
  if x.magnitude < fractionLimit then x.magnitude
  else x.magnitude % fractionLimit + fractionLimit

def exponent (x : Binary64) : Int :=
  if x.magnitude < fractionLimit then -1074
  else (x.magnitude / fractionLimit : Nat) - 1075

def isIntegral (x : Binary64) : Bool :=
  x.isFinite && (0 ≤ x.exponent || x.significand % Nat.pow 2 (-x.exponent).toNat == 0)

def truncate (x : Binary64) : Int :=
  let size :=
    if 0 ≤ x.exponent then x.significand * Nat.pow 2 x.exponent.toNat
    else x.significand / Nat.pow 2 (-x.exponent).toNat
  if x.negative then -(size : Int) else size

theorem same_refl (x : Binary64) : x.same x = true := by
  simp [same]

theorem same_comm (x y : Binary64) : x.same y = y.same x := by
  simp only [same, Bool.or_comm x.isNaN, Bool.and_comm x.isNaN, BEq.comm (a := x.key)]

end Binary64

end QueryDomain
