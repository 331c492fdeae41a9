import QueryDomain.Value

/-! Sets of values in the order of first occurrence, equal values once. -/
namespace QueryDomain

structure ValueSet where
  values : List Value
  deriving DecidableEq, Repr

namespace ValueSet

def empty : ValueSet := ⟨[]⟩

def singleton (value : Value) : ValueSet := ⟨[value]⟩

def contains (s : ValueSet) (value : Value) : Bool := s.values.any (·.same value)

def fresh (seen : List Value) : List Value → List Value
  | [] => []
  | value :: rest =>
    if seen.any (·.same value) then fresh seen rest else value :: fresh (value :: seen) rest

def ofList (values : List Value) : ValueSet := ⟨fresh [] values⟩

def insert (s : ValueSet) (value : Value) : ValueSet × Bool :=
  if s.contains value then (s, false) else (⟨s.values ++ [value]⟩, true)

def size (s : ValueSet) : Nat := s.values.length

def isEmpty (s : ValueSet) : Bool := s.values.isEmpty

def containsNull (s : ValueSet) : Bool := s.values.any Value.isNull

def intersection (s t : ValueSet) : ValueSet := ofList (s.values.filter t.contains)

def union (s t : ValueSet) : ValueSet := ofList (s.values ++ t.values)

def difference (s t : ValueSet) : ValueSet := ofList (s.values.filter fun v => !t.contains v)

def sameValues : List Value → List Value → Bool
  | [], [] => true
  | v :: vs, w :: ws => v.same w && sameValues vs ws
  | _, _ => false

def same (s t : ValueSet) : Bool := sameValues s.values t.values

def display (s : ValueSet) : String :=
  "[" ++ Text.join ", " (s.values.map Value.display) ++ "]"

end ValueSet

end QueryDomain
