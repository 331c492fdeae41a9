import QueryDomain.Binary64.Rounding

/-! Products and quotients of finite doubles, each the exact result rounded once, and decimals that
are reached through them. -/
namespace QueryDomain.Binary64

def ratio (x : Binary64) : Nat × Nat := scaled x.significand 1 (-x.exponent)

def mul (x y : Binary64) : Binary64 :=
  ofRatio (x.negative != y.negative) (x.ratio.1 * y.ratio.1) (x.ratio.2 * y.ratio.2)

def div (x y : Binary64) : Binary64 :=
  ofRatio (x.negative != y.negative) (x.ratio.1 * y.ratio.2) (x.ratio.2 * y.ratio.1)

def maxPower : Nat := 308

def powerOfTen (k : Nat) : Binary64 := ofRatio false (Nat.pow 10 k) 1

/-- Divides by `10 ^ places`, in two steps where that is no double. A number below `2 ^ 64` is zero
after two steps of `maxPower` places, so a third is never needed. -/
def shiftDown (x : Binary64) (places : Nat) : Binary64 :=
  if places ≤ maxPower then x.div (powerOfTen places)
  else (x.div (powerOfTen maxPower)).div (powerOfTen (min (places - maxPower) maxPower))

def shiftUp? (x : Binary64) (places : Nat) : Option Binary64 :=
  if places ≤ maxPower then
    let shifted := x.mul (powerOfTen places)
    if shifted.isFinite then some shifted else none
  else if x.isZero then some x
  else none

/-- Reads `significand * 10 ^ exponent` by scaling the double nearest to the significand, which is
below `2 ^ 64`. Every step rounds, so the result may be a neighbour of the nearest double. -/
def ofScaled? (negative : Bool) (significand : Nat) (exponent : Int) : Option Binary64 :=
  let x := ofRatio negative significand 1
  if 0 ≤ exponent then x.shiftUp? exponent.toNat else some (x.shiftDown (-exponent).toNat)

end QueryDomain.Binary64
