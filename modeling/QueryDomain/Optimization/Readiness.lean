import QueryDomain.Optimization.Context

/-! The last check before a condition is lowered to SQL. -/
namespace QueryDomain.Pass

def acceptsShape (op : Operator) : Operand → Bool
  | .domain _ | .query _ => op.isTraversal
  | .set _ => op.isMembership
  | .scalar _ => !op.isTraversal && !op.isMembership

/-- Refuses a condition that is not in the standard vocabulary or has no SQL. -/
def sqlReady : Pass := fun c ctx => do
  if !c.operator.isStandard then
    throw (.misuse c (.operatorLeft c.operator))
  let field ← ctx.field c
  if c.isDotted && field.type != .json then
    throw (.misuse c .pathLeft)
  if c.operator.isTraversal && !(field.isRelational || field.name == Entity.idName) then
    throw (.misuse c (.notTraversable field.name))
  if !acceptsShape c.operator c.operand then
    throw (.mismatch c (.refusesShape c.operator c.operand))
  if field.name != Entity.idName && !field.isSearchable then
    throw (.misuse c (.notSearchable field.name))
  keep

end QueryDomain.Pass
