import QueryDomain.Text.Basic
import QueryDomain.Text.Lowercase

/-! The operators of a condition. The first sixteen are the standard vocabulary; the others are
accepted and replaced. -/
namespace QueryDomain

inductive Operator where
  | any
  | notAny
  | mem
  | notMem
  | equal
  | notEqual
  | less
  | greater
  | lessOrEqual
  | greaterOrEqual
  | like
  | notLike
  | ilike
  | notIlike
  | eqLike
  | eqIlike
  | doubleEqual
  | lessGreater
  | equalIfSet
  | childOf
  | parentOf
  deriving DecidableEq, Repr

inductive OperatorFamily where
  | membership
  | equality
  | traversal
  | pattern
  | ordering
  | hierarchy
  deriving DecidableEq, Repr

namespace Operator

def all : List Operator :=
  [.any, .notAny, .mem, .notMem, .equal, .notEqual, .less, .greater, .lessOrEqual,
    .greaterOrEqual, .like, .notLike, .ilike, .notIlike, .eqLike, .eqIlike, .doubleEqual,
    .lessGreater, .equalIfSet, .childOf, .parentOf]

def rank (op : Operator) : Nat := all.idxOf op

def text : Operator → String
  | any => "any"
  | notAny => "not any"
  | mem => "in"
  | notMem => "not in"
  | equal => "="
  | notEqual => "!="
  | less => "<"
  | greater => ">"
  | lessOrEqual => "<="
  | greaterOrEqual => ">="
  | like => "like"
  | notLike => "not like"
  | ilike => "ilike"
  | notIlike => "not ilike"
  | eqLike => "=like"
  | eqIlike => "=ilike"
  | doubleEqual => "=="
  | lessGreater => "<>"
  | equalIfSet => "=?"
  | childOf => "child_of"
  | parentOf => "parent_of"

def read? (given : String) : Option Operator :=
  let name := Text.lowercase (Text.trim given)
  all.find? fun op => op.text == name

def isStandard : Operator → Bool
  | doubleEqual | lessGreater | equalIfSet | childOf | parentOf => false
  | _ => true

/-- The operator that selects exactly the complement. -/
def inverse? : Operator → Option Operator
  | any => some notAny
  | notAny => some any
  | mem => some notMem
  | notMem => some mem
  | equal => some notEqual
  | notEqual => some equal
  | less => some greaterOrEqual
  | greaterOrEqual => some less
  | greater => some lessOrEqual
  | lessOrEqual => some greater
  | like => some notLike
  | notLike => some like
  | ilike => some notIlike
  | notIlike => some ilike
  | eqLike | eqIlike | doubleEqual | lessGreater | equalIfSet | childOf | parentOf => none

theorem inverse?_symm {op inverse : Operator} (h : op.inverse? = some inverse) :
    inverse.inverse? = some op := by
  cases op <;> simp_all [inverse?] <;> subst h <;> rfl

def isNegative : Operator → Bool
  | notAny | notMem | notEqual | lessGreater | notLike | notIlike => true
  | _ => false

/-- What a negative operator negates; any other operator is its own positive form. -/
def positive : Operator → Operator
  | notAny => any
  | notMem => mem
  | notEqual | lessGreater => equal
  | notLike => like
  | notIlike => ilike
  | op => op

def family (op : Operator) : OperatorFamily :=
  match op.positive with
  | mem => .membership
  | equal | doubleEqual | equalIfSet => .equality
  | any => .traversal
  | like | ilike | eqLike | eqIlike => .pattern
  | childOf | parentOf => .hierarchy
  | _ => .ordering

def isPattern (op : Operator) : Bool := op.family == .pattern

def isOrdering : Operator → Bool
  | less | greater | lessOrEqual | greaterOrEqual => true
  | _ => false

def isMembership : Operator → Bool
  | mem | notMem => true
  | _ => false

def isTraversal : Operator → Bool
  | any | notAny => true
  | _ => false

end Operator

def OperatorFamily.rank : OperatorFamily → Nat
  | membership => 0
  | equality => 1
  | traversal => 2
  | pattern => 3
  | ordering => 4
  | hierarchy => 5

end QueryDomain
