import QueryDomain.Domain.Algebra

/-! The prefix form of a domain: a list of terms, where a connective stands before its operands. -/
namespace QueryDomain

inductive Term where
  | connective (k : Connective)
  | negation
  | constant (value : Bool)
  | leaf (condition : Condition)

mutual

def Condition.display : Condition → String
  | ⟨path, operator, operand, _⟩ =>
    "('" ++ path ++ "', '" ++ operator.text ++ "', " ++ operand.display ++ ")"

def Operand.display : Operand → String
  | .scalar value => value.display
  | .set values => values.display
  | .domain (.constant true) => "[]"
  | .domain inner => "[" ++ Text.join ", " inner.termTexts ++ "]"
  | .query query => "<query " ++ query.sql ++ ">"

def Domain.termTexts : Domain → List String
  | .constant value => [if value then "(1, '=', 1)" else "(0, '=', 1)"]
  | .negation inner => "'!'" :: inner.termTexts
  | .nary k children _ =>
    List.replicate (children.length - 1) ("'" ++ k.token ++ "'") ++ Domain.allTermTexts children
  | .condition c => [c.display]

def Domain.allTermTexts : List Domain → List String
  | [] => []
  | d :: ds => d.termTexts ++ Domain.allTermTexts ds

end

namespace Term

def arity : Term → Nat
  | connective _ => 2
  | negation => 1
  | constant _ | leaf _ => 0

def ofToken? (s : String) : Option Term :=
  if s = "&" then some (connective .and)
  else if s = "|" then some (connective .or)
  else if s = "!" then some negation
  else none

def display : Term → String
  | connective k => "'" ++ k.token ++ "'"
  | negation => "'!'"
  | constant value => if value then "(1, '=', 1)" else "(0, '=', 1)"
  | leaf c => c.display

def displayAll (terms : List Term) : String :=
  "[" ++ Text.join ", " (terms.map display) ++ "]"

end Term

namespace Domain

mutual

/-- The terms of one expression; a node of `n` children needs `n - 1` connectives. -/
def expression : Domain → List Term
  | constant value => [.constant value]
  | negation inner => .negation :: expression inner
  | nary k children _ =>
    List.replicate (children.length - 1) (.connective k) ++ expressions children
  | condition c => [.leaf c.withoutMark]

def expressions : List Domain → List Term
  | [] => []
  | d :: ds => expression d ++ expressions ds

end

def terms (d : Domain) : List Term := if d.isTrue then [] else d.expression

def display (d : Domain) : String := Operand.display (.domain d)

end Domain

end QueryDomain
