import QueryDomain.Domain.Term

/-! Everything that can go wrong, by cause. The wording is in the `message` functions alone. -/
namespace QueryDomain

inductive Malformation where
  | missingOperands (k : Connective)
  | missingOperand
  | nothingLeft
  | leftOver (count : Nat)

def Malformation.message : Malformation → String
  | missingOperands k => "operator '" ++ k.token ++ "' is missing operands"
  | missingOperand => "operator '!' is missing its operand"
  | nothingLeft => "no expression left after reduction"
  | leftOver count => s!"{count} expressions left after reduction"

inductive ReadError where
  | malformed (terms : List Term) (reason : Malformation)
  | unknownOperator (given : String)
  | badPath (given : String)
  | badTerm (found : Json)
  | notJson
  | notDomain (found : Json)
  | queryWithoutText (found : Json)
  | paramsNotList (found : Json)

def ReadError.message : ReadError → String
  | malformed terms reason =>
    "Malformed domain " ++ Term.displayAll terms ++ ": " ++ reason.message
  | unknownOperator given => s!"Invalid operator '{given}'"
  | badPath given => s!"Invalid field expression '{given}'"
  | badTerm found => "Invalid domain term " ++ found.text
  | notJson => "Invalid JSON domain"
  | notDomain found =>
    "Invalid JSON domain: expected a list of terms or a boolean, got " ++ found.text
  | queryWithoutText found =>
    "Invalid JSON domain: sub-query without 'query' text: " ++ found.text
  | paramsNotList found =>
    "Invalid JSON domain: sub-query params must be a list, got " ++ found.text

inductive Misuse where
  | noRelatedEntity (field : String)
  | notRelational (field : String)
  | crossesPlainField (field : String)
  | operatorLeft (operator : Operator)
  | pathLeft
  | notTraversable (field : String)
  | notSearchable (field : String)
  | noParentField (entity parent : String)
  | noTraversal (type : FieldType)
  | noInverse (field : String)
  | ownRelation (entity : String)
  | noSqlForm (operator : Operator)

def Misuse.message : Misuse → String
  | noRelatedEntity field => s!"'{field}' has no related entity"
  | notRelational field => s!"'{field}' is not a relational field"
  | crossesPlainField field => s!"path crosses '{field}', which is neither relational nor json"
  | operatorLeft operator => "operator '" ++ operator.text ++ "' was not rewritten"
  | pathLeft => "path was not decomposed into a traversal"
  | notTraversable field => s!"'{field}' cannot be traversed"
  | notSearchable field => s!"'{field}' is not stored and has no SQL"
  | noParentField entity parent => s!"'{entity}' has no parent field '{parent}'"
  | noTraversal type => "cannot traverse a " ++ type.name ++ " field"
  | noInverse field => s!"'{field}' has no inverse field"
  | ownRelation entity => s!"many2many from '{entity}' to itself declares no relation table"
  | noSqlForm operator => "operator '" ++ operator.text ++ "' has no SQL form"

/-- Why an operand does not suit the operator or the field. A refused literal is kept as it is
shown. -/
inductive Mismatch where
  | notBoolean (shown : String)
  | notDate (shown : String)
  | notDatetime (shown : String)
  | notNumber (shown : String)
  | notIdOrLabel (shown : String)
  | notPattern (shown : String)
  | expectsText (operator : Operator) (operand : Operand)
  | expectsDomain (operator : Operator) (operand : Operand)
  | expectsIds (operator : Operator) (operand : Operand)
  | refusesShape (operator : Operator) (operand : Operand)
  | notLowerable (operator : Operator) (operand : Operand)
  | selectsNothing (operator : Operator) (operand : Operand)

def Mismatch.message : Mismatch → String
  | notBoolean shown => s!"{shown} is not a boolean"
  | notDate shown => s!"{shown} is not a valid date"
  | notDatetime shown => s!"{shown} is not a valid datetime"
  | notNumber shown => s!"{shown} is not a number"
  | notIdOrLabel shown => s!"{shown} is neither an id nor a label"
  | notPattern shown => s!"{shown} is not a pattern"
  | expectsText operator operand =>
    "operator '" ++ operator.text ++ "' expects a string, got " ++ operand.kind ++ " " ++
      operand.display
  | expectsDomain operator operand =>
    "operator '" ++ operator.text ++ "' expects a domain, got " ++ operand.kind
  | expectsIds operator operand =>
    "operator '" ++ operator.text ++ "' expects ids or labels, got " ++ operand.kind
  | refusesShape operator operand =>
    "operator '" ++ operator.text ++ "' does not accept " ++ operand.kind
  | notLowerable operator operand =>
    "cannot lower '" ++ operator.text ++ "' with a " ++ operand.kind
  | selectsNothing operator operand =>
    "'" ++ operator.text ++ "' expects a domain, got " ++ operand.kind

inductive SearchFailure where
  | operatorOnOperand (condition : Condition)
  | traversalOfOperand (condition : Condition)
  | hook (text : String)

def SearchFailure.message : SearchFailure → String
  | operatorOnOperand c =>
    "cannot evaluate '" ++ c.operator.text ++ "' with a " ++ c.operand.kind ++ " in memory: " ++
      c.display
  | traversalOfOperand c => "cannot evaluate a " ++ c.operand.kind ++ " in memory: " ++ c.display
  | hook text => text

inductive SqlFailure where
  | markerCount (markers : Nat) (query : SubQuery)
  | hook (text : String)

def SqlFailure.message : SqlFailure → String
  | markerCount markers query =>
    "query has " ++ toString markers ++ " parameter markers but " ++
      toString query.params.length ++ " parameters: " ++ query.sql
  | hook text => text

inductive Error where
  | unreadable (cause : ReadError)
  | unknownEntity (name : String)
  | unknownField (entity field shown : String)
  | misuse (condition : Condition) (cause : Misuse)
  | mismatch (condition : Condition) (cause : Mismatch)
  | searchFailed (cause : SearchFailure)
  | sqlFailed (cause : SqlFailure)
  | diverged (limit : Nat)
  | notOptimized (entity : String) (actual required : Level)
  | tooDeep

def Error.message : Error → String
  | unreadable cause => cause.message
  | unknownEntity name => s!"Unknown entity '{name}'"
  | unknownField entity field shown => s!"Invalid field {entity}.{field} in condition {shown}"
  | misuse condition cause => "Invalid condition " ++ condition.display ++ ": " ++ cause.message
  | mismatch condition cause =>
    "Type mismatch in condition " ++ condition.display ++ ": " ++ cause.message
  | searchFailed cause => "Search failed: " ++ cause.message
  | sqlFailed cause => "Cannot render SQL: " ++ cause.message
  | diverged limit => s!"Optimization did not reach a fixed point after {limit} iterations"
  | notOptimized entity actual required =>
    s!"Domain for '{entity}' is optimized at level " ++ actual.text ++ ", level " ++
      required.text ++ " is required"
  | tooDeep => "Optimization is nested too deeply"

end QueryDomain
