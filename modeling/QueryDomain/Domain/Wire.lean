import QueryDomain.Domain.Prefix
import QueryDomain.Json.Document

/-! The JSON form of a domain: a list of terms, or a boolean. A leaf is a list of three; the operand
of `any` and `not any` is again a domain, and an object is a query written by hand. -/
namespace QueryDomain

namespace SubQuery

def ofJson (json : Json) : Except ReadError SubQuery := do
  let sql ← match (json.get? "query").bind Json.asString? with
    | some sql => pure sql
    | none => throw (.queryWithoutText json)
  let params ← match json.get? "params" with
    | none => pure []
    | some (.array items) =>
      items.mapM fun item =>
        match Value.ofJson? item with
        | some value => .ok value
        | none => .error (.badTerm item)
    | some other => throw (.paramsNotList other)
  return ⟨sql, params⟩

def toJson (q : SubQuery) : Json :=
  .object [("params", .array (q.params.map Value.toJson)), ("query", .string q.sql)]

end SubQuery

def Condition.of (path : String) (operator : Operator) (operand : Operand) :
    Except ReadError Condition :=
  if isPath path then .ok ⟨path, operator, operand, none⟩ else .error (.badPath path)

def Operator.read (given : String) : Except ReadError Operator :=
  match read? given with
  | some operator => .ok operator
  | none => .error (.unknownOperator given)

namespace Term

/-- The leaves `[1, "=", 1]` and `[0, "=", 1]` are constants. -/
def constantLeaf? (field operator operand : Json) : Option Bool :=
  if operator.asString? = some "=" ∧ operand.asInt64? = some 1 then
    if field.asInt64? = some 1 then some true
    else if field.asInt64? = some 0 then some false
    else none
  else none

def leafHead (field operator : Json) : Except ReadError (String × Operator) := do
  let path ← match field.asString? with
    | some path => pure path
    | none => throw (.badPath field.text)
  let operator ← match operator.asString? with
    | some given => Operator.read given
    | none => throw (.unknownOperator operator.text)
  return (path, operator)

mutual

/-- One term; the parts of a leaf are looked at from left to right, its path last. -/
def ofJson : Json → Run ReadError Term
  | .string token =>
    match ofToken? token with
    | some term => pure term
    | none => throw (.badTerm (.string token))
  | .array [field, operator, operand] =>
    match constantLeaf? field operator operand with
    | some value => pure (.constant value)
    | none => do
      let (path, operator) ← leafHead field operator
      let operand ← operandOfJson operator.isTraversal operand
      let condition ← Condition.of path operator operand
      return .leaf condition
  | other => throw (.badTerm other)

def allOfJson : List Json → Run ReadError (List Term)
  | [] => pure []
  | item :: items => do
    let term ← ofJson item
    return term :: (← allOfJson items)

/-- An operand. After a traversing operator every list is a domain; elsewhere only a list that
holds a list, because a domain that is not empty has a leaf. -/
def operandOfJson (traversal : Bool) : Json → Run ReadError Operand
  | .object members => do
    let query ← SubQuery.ofJson (.object members)
    return .query query
  | .array items =>
    if traversal || items.any Json.isArray then do
      let terms ← allOfJson items
      let inner ← Domain.ofTerms terms
      return .domain inner
    else
      match items.mapM Value.ofJson? with
      | some values => pure (.set (.ofList values))
      | none => throw (.badTerm (.array items))
  | scalar =>
    match traversal, scalar, Value.ofJson? scalar with
    | true, .bool value, _ => pure (.domain (.constant value))
    | true, _, _ => throw (.notDomain scalar)
    | false, _, some value => pure (.scalar value)
    | false, _, none => throw (.badTerm scalar)

end

end Term

namespace Domain

def ofJson : Json → Run ReadError Domain
  | .bool value => pure (.constant value)
  | .array items => do
    let terms ← Term.allOfJson items
    ofTerms terms
  | other => throw (.notDomain other)

def read (text : String) : Run ReadError Domain :=
  match Json.read? text with
  | some json => ofJson json
  | none => throw .notJson

def constantJson (value : Bool) : Json :=
  .array [.integer (if value then 1 else 0), .string "=", .integer 1]

mutual

def termJsons : Domain → List Json
  | constant value => [constantJson value]
  | negation inner => .string "!" :: termJsons inner
  | nary k children _ =>
    List.replicate (children.length - 1) (.string k.token) ++ allTermJsons children
  | condition c => [conditionJson c]

def allTermJsons : List Domain → List Json
  | [] => []
  | d :: ds => termJsons d ++ allTermJsons ds

def conditionJson : Condition → Json
  | ⟨path, operator, operand, _⟩ =>
    .array [.string path, .string operator.text, operandJson operand]

def operandJson : Operand → Json
  | .scalar value => value.toJson
  | .set values => .array (values.values.map Value.toJson)
  | .domain (.constant true) => .array []
  | .domain inner => .array (termJsons inner)
  | .query query => query.toJson

end

def toJson (d : Domain) : Json := operandJson (.domain d)

end Domain

end QueryDomain
