import QueryDomain.Optimization.Literals

/-! Passes for dates and timestamps. On a datetime field a day is the interval from its midnight up
to, but without, the next. -/
namespace QueryDomain.Pass

def toDate (c : Condition) (value : Value) : Except Error Value :=
  match value with
  | .null | .bool false => .ok .null
  | .date _ => .ok value
  | .timestamp t => .ok (.date t.date)
  | .text raw =>
    match Date.read? raw <|> (Timestamp.read? raw).map (·.date) with
    | some d => .ok (.date d)
    | none => .error (.mismatch c (.notDate s!"'{raw}'"))
  | other => .error (.mismatch c (.notDate other.display))

/-- A day without a time stays a day. -/
def toDatetime (c : Condition) (value : Value) : Except Error Value :=
  match value with
  | .null | .bool false => .ok .null
  | .date _ | .timestamp _ => .ok value
  | .text raw =>
    match (Timestamp.read? raw).map Value.timestamp <|> (Date.read? raw).map Value.date with
    | some v => .ok v
    | none => .error (.mismatch c (.notDatetime s!"'{raw}'"))
  | other => .error (.mismatch c (.notDatetime other.display))

def orderedUnset (c : Condition) : Run Error (Option Domain) := do
  Run.report (.comparedWithUnset c)
  replace (.constant false)

def dateLiterals : Pass := fun c _ =>
  if !comparesLiterals c then keep
  else if ordersUnset c then orderedUnset c
  else do
    match c.operand with
    | .scalar value => replaceOperand c (.scalar (← toDate c value))
    | .set values => replaceOperand c (.set (← coerceSet (toDate c) values))
    | .domain _ | .query _ => keep

def compareAt (c : Condition) (operator : Operator) (t : Timestamp) : Domain :=
  .leaf c.path operator (.scalar (.timestamp t))

/-- An ordering against a whole day. On the last day of the calendar every time is before the
next. -/
def dayBound (c : Condition) (day : Date) : Domain :=
  match c.operator with
  | .less | .greaterOrEqual => compareAt c c.operator (.startOf day)
  | .lessOrEqual =>
    match Timestamp.startOfNext? day with
    | some next => compareAt c .less next
    | none => .constant true
  | _ =>
    match Timestamp.startOfNext? day with
    | some next => compareAt c .greaterOrEqual next
    | none => .constant false

def withinDay (c : Condition) (day : Date) : Domain :=
  let start := compareAt c .greaterOrEqual (.startOf day)
  match Timestamp.startOfNext? day with
  | some next => .and [start, compareAt c .less next]
  | none => start

def daysOf (values : List Value) : List Date :=
  values.filterMap fun
    | .date day => some day
    | _ => none

def withoutDays (values : List Value) : List Value :=
  values.filter fun
    | .date _ => false
    | _ => true

/-- Membership in a set that holds days. The bounds of an interval match no unset value, which
`not in` is to select. -/
def dayMembership (c : Condition) (values : ValueSet) : Domain :=
  let rest := withoutDays values.values
  let intervals := (daysOf values.values).map (withinDay c)
  let others := if rest.isEmpty then [] else [Domain.leaf c.path .mem (.set (.ofList rest))]
  let inside := Domain.or (intervals ++ others)
  if c.operator = .mem then inside
  else if values.containsNull then inside.negate
  else .or [inside.negate, .leaf c.path .mem (.set .unset)]

def datetimeLiterals : Pass := fun c _ =>
  if !comparesLiterals c then keep
  else if ordersUnset c then orderedUnset c
  else do
    match c.operand with
    | .scalar value =>
      match ← toDatetime c value with
      | .date day => replace (dayBound c day)
      | coerced => replaceOperand c (.scalar coerced)
    | .set values =>
      let coerced ← coerceSet (toDatetime c) values
      if (daysOf coerced.values).isEmpty then replaceOperand c (.set coerced)
      else replace (dayMembership c coerced)
    | .domain _ | .query _ => keep

end QueryDomain.Pass
