import QueryDomain.Optimization.Context

/-! Passes that bring operators and operand shapes to the standard vocabulary. -/
namespace QueryDomain.Pass

/-- `==` and `<>` become `=` and `!=`; `=?` is `=` unless its operand is unset. -/
def deprecatedOperator : Pass := fun c _ =>
  let modern (operator : Operator) : Run Error (Option Domain) := do
    Run.report (.deprecatedOperator c operator)
    replace (.condition (c.withOperator operator))
  match c.operator with
  | .doubleEqual => modern .equal
  | .lessGreater => modern .notEqual
  | .equalIfSet => if c.operand.isFalsy then replace (.constant true) else modern .equal
  | _ => keep

def equalityToMembership : Pass := fun c _ => do
  let operator := if c.operator = .equal then Operator.mem else .notMem
  match c.operand with
  | .scalar value => replace (.leaf c.path operator (.set (.singleton value)))
  | operand =>
    Run.report (.betterOperator c operator)
    replace (.leaf c.path operator operand)

/-- Membership is in a set: a scalar becomes one, an empty set decides the condition, and domains
and queries are traversed instead. -/
def membershipOperand : Pass := fun c _ => do
  let positive := c.operator == .mem
  match c.operand with
  | .set values => if values.isEmpty then replace (.constant !positive) else keep
  | .scalar value =>
    Run.report (.listExpected c)
    replace (.condition (c.withOperand (.set (.singleton value))))
  | .domain _ | .query _ =>
    replace (.condition (c.withOperator (if positive then .any else .notAny)))

/-- A pattern is a text. The empty one matches everything, except that `=like` and `=ilike` take it
for "not set". -/
def patternOperand : Pass := fun c _ =>
  match c.operand with
  | .scalar value =>
    if value.isFalsy then
      match c.operator with
      | .eqLike | .eqIlike => replace (.leaf c.path .mem (.set .unset))
      | .notLike | .notIlike => replace (.constant false)
      | _ => replace (.constant true)
    else
      match value with
      | .text _ => keep
      | _ => throw (.mismatch c (.expectsText c.operator c.operand))
  | operand => throw (.mismatch c (.expectsText c.operator operand))

end QueryDomain.Pass
