import QueryDomain.Level
import QueryDomain.Operator
import QueryDomain.ValueSet

/-! The predicate tree over record fields. Marks record how far a node has been optimized; they
take no part in `Domain.same`. -/
namespace QueryDomain

inductive Connective where
  | and
  | or
  deriving DecidableEq, Repr

/-- A select of record identifiers, written by hand, with `%s` wherever a parameter goes. -/
structure SubQuery where
  sql : String
  params : List Value
  deriving DecidableEq, Repr

mutual

/-- A boolean predicate over the records of an entity. -/
inductive Domain where
  | constant (value : Bool)
  | negation (inner : Domain)
  | nary (connective : Connective) (children : List Domain) (mark : Option Mark)
  | condition (leaf : Condition)

/-- A comparison of the field at the end of a dotted path with an operand. -/
structure Condition where
  path : String
  operator : Operator
  operand : Operand
  mark : Option Mark := none

inductive Operand where
  | scalar (value : Value)
  | set (values : ValueSet)
  | domain (inner : Domain)
  | query (query : SubQuery)

end

namespace Operand

def isFalsy : Operand → Bool
  | scalar value => value.isFalsy
  | set values => values.isEmpty
  | domain _ | query _ => false

def kind : Operand → String
  | scalar _ => "scalar"
  | set _ => "collection"
  | domain _ => "domain"
  | query _ => "query"

def sameFlat : Operand → Operand → Bool
  | scalar v, scalar w => v.same w
  | set s, set t => s.same t
  | query q, query r => q.sql == r.sql && ValueSet.sameValues q.params r.params
  | _, _ => false

end Operand

namespace Condition

def isPath (path : String) : Bool :=
  (Text.split '.' path).all fun part => !(Text.trim part).isEmpty

/-- The condition on another operand; a mark does not outlive a change. -/
def withOperand (c : Condition) (operand : Operand) : Condition :=
  ⟨c.path, c.operator, operand, none⟩

def withOperator (c : Condition) (operator : Operator) : Condition :=
  ⟨c.path, operator, c.operand, none⟩

def withoutMark (c : Condition) : Condition := ⟨c.path, c.operator, c.operand, none⟩

def withMark (c : Condition) (mark : Mark) : Condition :=
  ⟨c.path, c.operator, c.operand, some mark⟩

def isDotted (c : Condition) : Bool := c.path.toList.contains '.'

def head (c : Condition) : String := (Text.cut '.' c.path).1

def rest? (c : Condition) : Option String := (Text.cut '.' c.path).2

end Condition

namespace Domain

def isTrue : Domain → Bool
  | constant true => true
  | _ => false

def isFalse : Domain → Bool
  | constant false => true
  | _ => false

def asCondition? : Domain → Option Condition
  | condition leaf => some leaf
  | _ => none

def connective? : Domain → Option Connective
  | nary k _ _ => some k
  | _ => none

def children : Domain → List Domain
  | nary _ children _ => children
  | _ => []

def mark? : Domain → Option Mark
  | nary _ _ mark => mark
  | condition leaf => leaf.mark
  | constant _ | negation _ => none

/-- Constants and negations carry no mark. -/
def withMark (d : Domain) (mark : Mark) : Domain :=
  match d with
  | nary k children _ => nary k children (some mark)
  | condition leaf => condition (leaf.withMark mark)
  | constant _ | negation _ => d

def leaf (path : String) (operator : Operator) (operand : Operand) : Domain :=
  condition ⟨path, operator, operand, none⟩

mutual

def size : Domain → Nat
  | constant _ => 1
  | negation inner => 1 + size inner
  | nary _ children _ => 1 + sizes children
  | condition ⟨_, _, .domain inner, _⟩ => 1 + size inner
  | condition _ => 1

def sizes : List Domain → Nat
  | [] => 0
  | d :: ds => size d + sizes ds

end

mutual

/-- Structural equality, blind to marks. -/
def same : Domain → Domain → Bool
  | constant a, constant b => a == b
  | negation a, negation b => same a b
  | nary k as _, nary l bs _ => k == l && sameAll as bs
  | condition ⟨p, op, .domain a, _⟩, condition ⟨q, op', .domain b, _⟩ =>
    p == q && op == op' && same a b
  | condition ⟨p, op, x, _⟩, condition ⟨q, op', y, _⟩ => p == q && op == op' && x.sameFlat y
  | _, _ => false

def sameAll : List Domain → List Domain → Bool
  | [], [] => true
  | a :: as, b :: bs => same a b && sameAll as bs
  | _, _ => false

end

/-- Induction over the tree, into the domains inside operands too. -/
@[elab_as_elim]
theorem induct {P : Domain → Prop} (constant : ∀ v, P (.constant v))
    (negation : ∀ d, P d → P (.negation d))
    (nary : ∀ k children mark, (∀ d ∈ children, P d) → P (.nary k children mark))
    (condition : ∀ c : Condition, (∀ d, c.operand = .domain d → P d) → P (.condition c)) :
    ∀ d, P d :=
  @Domain.rec P (fun c => ∀ d, c.operand = .domain d → P d)
    (fun operand => ∀ d, operand = .domain d → P d) (fun ds => ∀ d ∈ ds, P d)
    constant negation nary condition (fun _ _ _ _ h => h)
    (fun _ _ h => nomatch h) (fun _ _ h => nomatch h) (fun _ ih _ h => by cases h; exact ih)
    (fun _ _ h => nomatch h) (fun _ h => nomatch h)
    (fun _ _ hd hds d h => (List.mem_cons.1 h).elim (fun e => e ▸ hd) (hds d))

end Domain

end QueryDomain
