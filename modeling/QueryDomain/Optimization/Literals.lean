import QueryDomain.Optimization.Context

/-! Passes that bring literals to the declared type of the field. -/
namespace QueryDomain.Pass

def coerceSet (coerce : Value → Except Error Value) (values : ValueSet) :
    Except Error ValueSet := do
  return .ofList (← values.values.mapM coerce)

def toBoolean (c : Condition) (value : Value) : Except Error Value :=
  if value.isNull then .ok (.bool false)
  else
    match value.asBool? with
    | some b => .ok (.bool b)
    | none => .error (.mismatch c (.notBoolean value.display))

/-- Unset counts as false. Because a boolean column may be unset, being false is written as not
being true. -/
def booleanMembers : Pass := fun c _ =>
  match c.operand with
  | .set values =>
    if c.operator.isMembership then do
      let coerced ← coerceSet (toBoolean c) values
      if coerced.same (.singleton (.bool false)) then
        let operator := if c.operator = .mem then Operator.notMem else .mem
        replace (.leaf c.path operator (.set (.singleton (.bool true))))
      else replaceOperand c (.set coerced)
    else keep
  | _ => keep

/-- A set of both booleans decides the condition. Before the search level it still tells whether the
field is set. -/
def bothBooleans : Pass := fun c _ =>
  match c.operand with
  | .set values =>
    if c.operator.isMembership && values.contains (.bool true) && values.contains (.bool false) then
      replace (.constant (c.operator == .mem))
    else keep
  | _ => keep

/-- Numbers may be given as text, and false means unset. -/
def toNumber (c : Condition) (integer : Bool) (value : Value) : Except Error Value :=
  match value with
  | .null | .int _ | .float _ => .ok value
  | .bool false => .ok .null
  | .text raw =>
    let raw := Text.trim raw
    let whole := if integer then (Value.readInt? raw).map Value.int else none
    match whole <|> (Binary64.read? raw).map Value.float with
    | some number => .ok number
    | none => .error (.mismatch c (.notNumber s!"'{raw}'"))
  | other => .error (.mismatch c (.notNumber other.display))

/-- Whether literals are compared with the field itself, and not with a property of it. -/
def comparesLiterals (c : Condition) : Bool :=
  !c.isDotted && (c.operator.isOrdering || c.operator.isMembership)

def ordersUnset (c : Condition) : Bool :=
  c.operator.isOrdering &&
    match c.operand with
    | .scalar .null => true
    | _ => false

def numericLiterals : Pass := fun c ctx =>
  if comparesLiterals c then do
    let field ← ctx.field c
    let coerce := toNumber c (field.type == .integer)
    if ordersUnset c then replace (.constant false)
    else
      match c.operand with
      | .scalar value => replaceOperand c (.scalar (← coerce value))
      | .set values => replaceOperand c (.set (← coerceSet coerce values))
      | .domain _ | .query _ => keep
  else keep

/-- Content kept outside the table can only be asked whether it exists. Any other condition on it is
reported and taken for true. -/
def attachmentExists : Pass := fun c ctx => do
  let field ← ctx.field c
  let refuse : Run Error (Option Domain) := do
    Run.report (.attachmentCompared ctx.entity.name field.name c)
    replace (.constant true)
  if !field.attachment then keep
  else
    match c.operand with
    | .set values =>
      if c.operator.isMembership && values.values.all Value.isFalsy then
        replaceOperand c (.set .unset)
      else refuse
    | _ => refuse

end QueryDomain.Pass
