import QueryDomain.Error
import QueryDomain.Sql.Dialect

/-! What a computation reports on its way. Events are kept as data and worded only when shown. -/
namespace QueryDomain

inductive Severity where
  | debug
  | info
  | warn
  | error
  deriving DecidableEq, Repr

def Severity.text : Severity → String
  | debug => "DEBUG"
  | info => "INFO"
  | warn => "WARN"
  | error => "ERROR"

inductive Event where
  | joinedImplicitly (count : Nat) (terms : List Term)
  | reusedElsewhere (domain : Domain) (before now : String)
  | replaced (pass : String) (condition : Condition) (result : Domain)
  | mergedInPlace (k : Connective) (count : Nat)
  | merged (k : Connective) (before after : Nat)
  | optimized (entity : String) (level : Level) (result : Domain)
  | deprecatedOperator (condition : Condition) (replacement : Operator)
  | betterOperator (condition : Condition) (operator : Operator)
  | listExpected (condition : Condition)
  | inherited (entity field link : String)
  | unsearchableField (entity field : String) (condition : Condition)
  | attachmentCompared (entity field : String) (condition : Condition)
  | hierarchyResolved (condition : Condition) (entity parent : String) (result : Domain)
  | comparedWithUnset (condition : Condition)
  | searched (entity : String) (domain : Domain) (count : Nat)
  | lowered (entity : String) (dialect : Dialect) (params : Nat)
  | compiling (entity catalog level : String)
  | loaded (count : Nat) (catalog : String)

namespace Event

def severity : Event → Severity
  | reusedElsewhere .. | betterOperator .. => .warn
  | unsearchableField .. | attachmentCompared .. => .error
  | compiling .. => .info
  | _ => .debug

def message : Event → String
  | joinedImplicitly count terms =>
    s!"Inserted {count} implicit '&' into domain " ++ Term.displayAll terms
  | reusedElsewhere domain before now =>
    "Domain " ++ domain.display ++
      s!" was optimized for '{before}' and is now optimized for '{now}'"
  | replaced pass condition result =>
    s!"Pass '{pass}' rewrote " ++ condition.display ++ " into " ++ result.display
  | mergedInPlace k count =>
    "Merges rewrote " ++ k.token ++
      s!" node without shrinking it, keeping {count} children"
  | merged k before after =>
    s!"Merged {before} children of " ++ k.token ++ s!" node into {after}"
  | optimized entity level result =>
    s!"Optimized domain for '{entity}' at level " ++ level.text ++ ": " ++ result.display
  | deprecatedOperator condition replacement =>
    "Operator '" ++ condition.operator.text ++ "' is deprecated, use '" ++ replacement.text ++
      "' in " ++ condition.display
  | betterOperator condition operator =>
    "The domain condition " ++ condition.display ++ " should use the '" ++ operator.text ++
      "' operator"
  | listExpected condition =>
    "The domain condition " ++ condition.display ++ " should have a list value"
  | inherited entity field link => s!"Field {entity}.{field} is inherited through '{link}'"
  | unsearchableField entity field condition =>
    s!"Non-stored field {entity}.{field} cannot be searched, ignoring condition " ++
      condition.display
  | attachmentCompared entity field condition =>
    s!"Binary field {entity}.{field} is stored as an attachment and only supports " ++
      "existence checks, ignoring condition " ++ condition.display
  | hierarchyResolved condition entity parent result =>
    "Resolved " ++ condition.display ++ s!" on '{entity}' through '{parent}' into " ++
      result.display
  | comparedWithUnset condition => "Comparing " ++ condition.display ++ " with an unset value"
  | searched entity domain count =>
    s!"Searched '{entity}' with " ++ domain.display ++ s!": {count} records"
  | lowered entity dialect params =>
    s!"Lowered domain for '{entity}' to " ++ dialect.name ++ s!" SQL with {params} parameters"
  | compiling entity catalog level =>
    s!"Compiling domain for '{entity}' against catalog {catalog}, level: {level}"
  | loaded count catalog => s!"Loaded {count} entities from {catalog}"

end Event

end QueryDomain
