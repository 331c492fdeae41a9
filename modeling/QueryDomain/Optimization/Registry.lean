import QueryDomain.Optimization.Days
import QueryDomain.Optimization.Hierarchy
import QueryDomain.Optimization.Merging
import QueryDomain.Optimization.Readiness
import QueryDomain.Optimization.Vocabulary

/-! Where the optimizer looks passes up: by level, then by operator or by the type of the field. -/
namespace QueryDomain

/-- The conditions that a pass is tried on. A pass is tried as often as the operator or type is
listed. -/
inductive PassScope where
  | always
  | operators (operators : List Operator)
  | types (types : List FieldType)

structure NamedPass where
  name : String
  run : Pass

structure PassEntry where
  level : Level
  scope : PassScope
  pass : NamedPass

/-- The children that a merge is handed: all of them, or each run of neighbours that are conditions
on one path with one of some operators, perhaps only on fields of some types. -/
inductive MergeScope where
  | children
  | runs (operators : List Operator) (types : Option (List FieldType))

structure MergeEntry where
  level : Level
  scope : MergeScope
  name : String
  run : Merge

structure Registry where
  passes : List PassEntry := []
  merges : List MergeEntry := []

def PassScope.operatorCount (op : Operator) : PassScope → Nat
  | operators ops => ops.count op
  | _ => 0

def PassScope.typeCount (type : FieldType) : PassScope → Nat
  | types ts => ts.count type
  | _ => 0

def PassScope.isAlways : PassScope → Bool
  | always => true
  | _ => false

namespace MergeScope

def runKey? : MergeScope → Domain → Option String
  | runs operators _, .condition c => if operators.contains c.operator then some c.path else none
  | _, _ => none

def acceptsType (type : Option FieldType) : MergeScope → Bool
  | runs _ (some types) =>
    match type with
    | some type => types.contains type
    | none => false
  | _ => true

end MergeScope

namespace Registry

def addPass (r : Registry) (level : Level) (scope : PassScope) (name : String) (run : Pass) :
    Registry :=
  { r with passes := r.passes ++ [⟨level, scope, ⟨name, run⟩⟩] }

def addMerge (r : Registry) (level : Level) (scope : MergeScope) (name : String) (run : Merge) :
    Registry :=
  { r with merges := r.merges ++ [⟨level, scope, name, run⟩] }

/-- The passes for a condition at one level: those for every condition, then those for its
operator, then those for the type of its field, each kind in the order of registration. -/
def passesFor (r : Registry) (level : Level) (op : Operator) (type : Option FieldType) :
    List NamedPass :=
  let here := r.passes.filter fun entry => entry.level == level
  let always := (here.filter fun entry => entry.scope.isAlways).map (·.pass)
  let byOperator := here.flatMap fun entry =>
    List.replicate (entry.scope.operatorCount op) entry.pass
  let byType := match type with
    | some type => here.flatMap fun entry =>
        List.replicate (entry.scope.typeCount type) entry.pass
    | none => []
  always ++ byOperator ++ byType

def mergesAt (r : Registry) (level : Level) : List MergeEntry :=
  r.merges.filter fun entry => entry.level == level

def membershipOperators : List Operator := [.mem, .notMem]

def patternOperators : List Operator := [.like, .notLike, .ilike, .notIlike, .eqLike, .eqIlike]

def library : List NamedPass := [
  ⟨"resolve_field", Pass.resolvePath⟩,
  ⟨"legacy_operator", Pass.deprecatedOperator⟩,
  ⟨"equality_to_membership", Pass.equalityToMembership⟩,
  ⟨"membership_value", Pass.membershipOperand⟩,
  ⟨"validate_pattern", Pass.patternOperand⟩,
  ⟨"search_by_label", Pass.labels⟩,
  ⟨"traverse_relation", Pass.relatedDomain⟩,
  ⟨"x2many_membership", Pass.manyMembers⟩,
  ⟨"normalize_boolean", Pass.booleanMembers⟩,
  ⟨"normalize_date", Pass.dateLiterals⟩,
  ⟨"normalize_datetime", Pass.datetimeLiterals⟩,
  ⟨"coerce_numeric", Pass.numericLiterals⟩,
  ⟨"restrict_attachment", Pass.attachmentExists⟩,
  ⟨"delegated_field", Pass.inheritedField⟩,
  ⟨"non_stored_field", Pass.computedField⟩,
  ⟨"resolve_hierarchy", Pass.hierarchy⟩,
  ⟨"collapse_boolean", Pass.bothBooleans⟩,
  ⟨"assert_sql_ready", Pass.sqlReady⟩]

def standard : Registry where
  passes := [
    ⟨.basic, .always, ⟨"resolve_field", Pass.resolvePath⟩⟩,
    ⟨.basic, .operators [.doubleEqual, .lessGreater, .equalIfSet],
      ⟨"legacy_operator", Pass.deprecatedOperator⟩⟩,
    ⟨.basic, .operators [.equal, .notEqual],
      ⟨"equality_to_membership", Pass.equalityToMembership⟩⟩,
    ⟨.basic, .operators membershipOperators, ⟨"membership_value", Pass.membershipOperand⟩⟩,
    ⟨.basic, .operators patternOperators, ⟨"validate_pattern", Pass.patternOperand⟩⟩,
    ⟨.basic, .operators (membershipOperators ++ patternOperators),
      ⟨"search_by_label", Pass.labels⟩⟩,
    ⟨.basic, .operators [.any, .notAny], ⟨"traverse_relation", Pass.relatedDomain⟩⟩,
    ⟨.basic, .types [.one2many, .many2many], ⟨"x2many_membership", Pass.manyMembers⟩⟩,
    ⟨.basic, .types [.boolean], ⟨"normalize_boolean", Pass.booleanMembers⟩⟩,
    ⟨.basic, .types [.date], ⟨"normalize_date", Pass.dateLiterals⟩⟩,
    ⟨.basic, .types [.datetime], ⟨"normalize_datetime", Pass.datetimeLiterals⟩⟩,
    ⟨.basic, .types [.integer, .float, .monetary], ⟨"coerce_numeric", Pass.numericLiterals⟩⟩,
    ⟨.basic, .types [.binary], ⟨"restrict_attachment", Pass.attachmentExists⟩⟩,
    ⟨.search, .always, ⟨"delegated_field", Pass.inheritedField⟩⟩,
    ⟨.search, .always, ⟨"non_stored_field", Pass.computedField⟩⟩,
    ⟨.search, .operators [.childOf, .parentOf], ⟨"resolve_hierarchy", Pass.hierarchy⟩⟩,
    ⟨.search, .types [.boolean], ⟨"collapse_boolean", Pass.bothBooleans⟩⟩,
    ⟨.sql, .always, ⟨"assert_sql_ready", Pass.sqlReady⟩⟩]
  merges := [
    ⟨.basic, .children, "merge_duplicates", Merge.duplicates⟩,
    ⟨.basic, .runs membershipOperators none, "merge_sets", Merge.sets⟩,
    -- Integer is the type of `id`.
    ⟨.basic, .runs [.any, .notAny] (some [.integer, .many2one, .one2many, .many2many]),
      "merge_any", Merge.anys⟩]

end Registry

end QueryDomain
