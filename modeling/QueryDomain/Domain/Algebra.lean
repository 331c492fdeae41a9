import QueryDomain.Domain.Basic

/-! Conjunction, disjunction and negation of domains. Nodes of one connective are merged, constants
disappear, and negation moves down to the conditions. -/
namespace QueryDomain

namespace Connective

def identity : Connective → Bool
  | and => true
  | or => false

def absorbing (k : Connective) : Bool := !k.identity

def inverse : Connective → Connective
  | and => or
  | or => and

def token : Connective → String
  | and => "&"
  | or => "|"

/-- What a child adds to the children of a node, unless it decides the node. -/
def contribution? (k : Connective) : Domain → Option (List Domain)
  | .constant v => if v = k.identity then some [] else none
  | .nary l children mark => if k = l then some children else some [.nary l children mark]
  | d => some [d]

def collect? (k : Connective) : List Domain → Option (List Domain)
  | [] => some []
  | d :: ds =>
    match k.contribution? d with
    | none => none
    | some new => (collect? k ds).map (new ++ ·)

def node (k : Connective) : List Domain → Domain
  | [] => .constant k.identity
  | [d] => d
  | ds => .nary k ds none

def apply (k : Connective) (ds : List Domain) : Domain :=
  match k.collect? ds with
  | none => .constant k.absorbing
  | some children => k.node children

end Connective

/-- The inverse operator says it for a plain field. A path may lead to several records, so its
condition stays under an explicit negation. -/
def Condition.negate (c : Condition) : Domain :=
  match c.operator.inverse? with
  | some inverse =>
    if c.isDotted then .negation (.condition c) else .condition (c.withOperator inverse)
  | none => .negation (.condition c)

theorem Condition.negate_eq_negation {c : Condition} (h : c.negate = .negation (.condition c)) :
    c.isDotted = true ∨ c.operator.inverse? = none := by
  unfold negate at h
  split at h
  · split at h
    · exact .inl ‹_›
    · cases h
  · exact .inr ‹_›

namespace Domain

def and (ds : List Domain) : Domain := Connective.and.apply ds

def or (ds : List Domain) : Domain := Connective.or.apply ds

mutual

def negate : Domain → Domain
  | constant v => constant (!v)
  | negation inner => inner
  | nary k children _ => k.inverse.apply (negateAll children)
  | condition c => c.negate

def negateAll : List Domain → List Domain
  | [] => []
  | d :: ds => negate d :: negateAll ds

end

theorem negateAll_eq_map (ds : List Domain) : negateAll ds = ds.map negate := by
  induction ds with
  | nil => rfl
  | cons d ds ih => simp [negateAll, ih]

end Domain

end QueryDomain
