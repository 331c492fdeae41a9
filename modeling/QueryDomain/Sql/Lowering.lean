import QueryDomain.Optimization.Optimizer
import QueryDomain.Sql.Predicate

/-! From domains to SQL. One counter numbers the aliases of all sub-selects of a statement. -/
namespace QueryDomain

abbrev Lowering := StateT Nat (Except Error)

/-- The link table of a many2many that declares none: both tables in order of their names. Onto its
own table both columns would have one name, so there the relation must be declared. -/
def Relation.default (c : Condition) (entity comodel : Entity) : Except Error Relation :=
  let table := entity.table
  let cotable := comodel.table
  if table = cotable then .error (.misuse c (.ownRelation entity.name))
  else
    let (first, second) := if table < cotable then (table, cotable) else (cotable, table)
    .ok ⟨first ++ "_" ++ second ++ "_rel", table ++ "_id", cotable ++ "_id"⟩

namespace Lowering

def aliasOf (table : String) (number : Nat) : String := table ++ "__" ++ toString number

def nextAlias (table : String) : Lowering String := do
  let number := (← get) + 1
  set number
  return aliasOf table number

def columnOf (c : Condition) (field : Field) (row : String) : ColumnRef :=
  match c.rest? with
  | some path =>
    if field.type = .json then .jsonPath ⟨some row, field.columnName⟩ (Text.split '.' path)
    else .qualified row field.columnName
  | none => .qualified row field.columnName

def isPath : ColumnRef → Bool
  | .jsonPath _ _ => true
  | .column _ => false

/-- Membership, where an unset member stands for "not set". -/
def membership (column : ColumnRef) (values : ValueSet) (negated : Bool) : Predicate :=
  let unset := values.containsNull
  let list : Option Predicate :=
    match values.values.filter fun v => !v.isNull with
    | [] => none
    | [value] => some (.compare column (if negated then .different else .equal) value)
    | values => some (.inList column negated values)
  match list with
  | none => if unset then .null column negated else .constant negated
  | some list =>
    if unset && negated then .group .and [list, .null column true]
    else if unset || negated then .group .or [list, .null column false]
    else list

def patternMatch (c : Condition) (column : ColumnRef) (textual : Bool) (value : Value) :
    Except Error Predicate :=
  match value.asText? with
  | none => .error (.mismatch c (.notPattern value.display))
  | some text =>
    let positive := c.operator.positive
    let negated := c.operator.isNegative
    let pattern := if positive = .like ∨ positive = .ilike then "%" ++ text ++ "%" else text
    let caseless := positive == .ilike || positive == .eqIlike
    let matched := Predicate.like column (!textual) caseless negated pattern
    .ok (if negated then .group .or [matched, .null column false] else matched)

def comparison (c : Condition) (column : ColumnRef) (textual : Bool) : Except Error Predicate :=
  match c.operand with
  | .set values =>
    if c.operator.isMembership then .ok (membership column values (c.operator == .notMem))
    else .error (.mismatch c (.notLowerable c.operator c.operand))
  | .scalar value =>
    if c.operator.isPattern then patternMatch c column textual value
    else
      match c.operator with
      | .equal =>
        .ok (if value.isNull then .null column false else .compare column .equal value)
      | .notEqual =>
        .ok (if value.isNull then .null column true
          else .group .or [.compare column .different value, .null column false])
      | .less => .ok (.compare column .less value)
      | .greater => .ok (.compare column .greater value)
      | .lessOrEqual => .ok (.compare column .lessOrEqual value)
      | .greaterOrEqual => .ok (.compare column .greaterOrEqual value)
      | operator => .error (.misuse c (.noSqlForm operator))
  | operand => .error (.mismatch c (.notLowerable c.operator operand))

abbrev Inner := Option (Entity → String → Lowering Predicate)

def selection (c : Condition) (inner : Inner) (target : Entity) : Lowering Query :=
  match inner, c.operand with
  | some lower, _ => do
    let row ← nextAlias target.table
    return .select target.table row (← lower target row)
  | none, .query query => do
    query.check
    return .verbatim query
  | none, operand => throw (.mismatch c (.selectsNothing c.operator operand))

def filter (c : Condition) (inner : Inner) (target : Entity) (row : String) :
    Lowering Predicate :=
  match inner, c.operand with
  | some lower, _ => lower target row
  | none, .query query => do
    query.check
    return .inQuery (.qualified row Entity.idName) false (.verbatim query)
  | none, operand => throw (.mismatch c (.selectsNothing c.operator operand))

def traversal (catalog : Catalog) (c : Condition) (inner : Inner) (field : Field)
    (entity : Entity) (row : String) : Lowering Predicate := do
  let negated := c.operator == .notAny
  let id := ColumnRef.qualified row Entity.idName
  if field.name = Entity.idName then
    return .inQuery id negated (← selection c inner entity)
  let target ← catalog.comodel c field
  match field.type with
  | .many2one =>
    let column := ColumnRef.qualified row field.columnName
    let test := Predicate.inQuery column negated (← selection c inner target)
    return if negated then .group .or [.null column false, test] else test
  | .one2many =>
    let some inverse := field.inverseName | throw (.misuse c (.noInverse field.name))
    let column := ((target.field? inverse).map (·.columnName)).getD inverse
    let sub ← nextAlias target.table
    return .linked negated target.table sub (.qualified sub column) id
      (← filter c inner target sub)
  | .many2many =>
    let relation ← match field.relation with
      | some relation => pure relation
      | none => Relation.default c entity target
    let sub ← nextAlias relation.table
    return .linked negated relation.table sub (.qualified sub relation.column1) id
      (.inQuery (.qualified sub relation.column2) false (← selection c inner target))
  | type => throw (.misuse c (.noTraversal type))

def hooked (dialect : Dialect) (hook : SqlHook) (c : Condition) (row : String) :
    Lowering Predicate := do
  let (pieces, used) ← hook dialect c row (← get)
  set used
  return .custom pieces

def condition (dialect : Dialect) (catalog : Catalog) (c : Condition) (inner : Inner)
    (entity : Entity) (row : String) : Lowering Predicate := do
  let field ← entity.conditionField c
  match field.sqlHook with
  | some hook => hooked dialect hook c row
  | none =>
    if c.operator.isTraversal then traversal catalog c inner field entity row
    else
      let column := columnOf c field row
      comparison c column (field.type.isTextual || isPath column)

mutual

def domain (dialect : Dialect) (catalog : Catalog) :
    Domain → Entity → String → Lowering Predicate
  | .constant value, _, _ => return .constant value
  | .negation inner, entity, row => return .notTrue (← domain dialect catalog inner entity row)
  | .nary k children _, entity, row =>
    return .group k (← domains dialect catalog children entity row)
  | .condition ⟨path, operator, .domain inner, mark⟩, entity, row =>
    condition dialect catalog ⟨path, operator, .domain inner, mark⟩
      (some fun e r => domain dialect catalog inner e r) entity row
  | .condition c, entity, row => condition dialect catalog c none entity row

def domains (dialect : Dialect) (catalog : Catalog) :
    List Domain → Entity → String → Lowering (List Predicate)
  | [], _, _ => return []
  | d :: ds, entity, row => do
    let first ← domain dialect catalog d entity row
    return first :: (← domains dialect catalog ds entity row)

end

end Lowering

def Domain.toStatement (dialect : Dialect) (catalog : Catalog) (entity : Entity) (row : String)
    (d : Domain) : Except Error Statement := do
  let (predicate, _) ← (Lowering.domain dialect catalog d entity row).run 0
  return .ofPieces dialect (predicate.pieces dialect)

/-- The SQL of a domain that has been optimized for it. The rows of its entity are called by the
alias, or else by the name of the table. -/
def OptimizedDomain.toStatement (o : OptimizedDomain) (catalog : Catalog) (dialect : Dialect)
    (row : Option String) : Run Error Statement := do
  o.requireLevel .sql
  let entity ← catalog.entity o.entity
  let statement ← o.domain.toStatement dialect catalog entity (row.getD entity.table)
  Run.report (.lowered entity.name dialect statement.params.length)
  return statement

end QueryDomain
