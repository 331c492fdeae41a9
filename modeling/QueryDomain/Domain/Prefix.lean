import QueryDomain.Run

/-! Reading the prefix form. Complete expressions one after the other are joined by `&`; then the
terms are reduced from right to left on a stack. -/
namespace QueryDomain

namespace Term

/-- How many `&` are missing in front, when that many expressions are still expected. -/
def missingAnds (expected : Nat) : List Term → Nat
  | [] => 0
  | term :: terms =>
    if expected = 0 then 1 + missingAnds term.arity terms
    else missingAnds (expected + term.arity - 1) terms

def withImplicitAnds (terms : List Term) : List Term :=
  List.replicate (missingAnds 1 terms) (.connective .and) ++ terms

/-- Takes the operands of a term from the stack and puts its value there. -/
def push (term : Term) (stack : List Domain) : Except Malformation (List Domain) :=
  match term, stack with
  | connective k, first :: second :: stack => .ok (k.apply [first, second] :: stack)
  | connective k, _ => .error (.missingOperands k)
  | negation, operand :: stack => .ok (operand.negate :: stack)
  | negation, [] => .error .missingOperand
  | constant value, stack => .ok (.constant value :: stack)
  | leaf c, stack => .ok (.condition c :: stack)

def finish : List Domain → Except Malformation Domain
  | [] => .error .nothingLeft
  | [d] => .ok d
  | stack => .error (.leftOver stack.length)

def reduce (terms : List Term) : Except Malformation Domain :=
  terms.foldrM push [] >>= finish

end Term

/-- The domain of a list of terms; no term at all means always true. -/
def Domain.ofTerms (terms : List Term) : Run ReadError Domain :=
  if terms.isEmpty then pure (.constant true)
  else do
    let count := Term.missingAnds 1 terms
    if count ≠ 0 then
      Run.report (.joinedImplicitly count terms)
    match Term.reduce (Term.withImplicitAnds terms) with
    | .ok d => pure d
    | .error reason => throw (.malformed terms reason)

end QueryDomain
