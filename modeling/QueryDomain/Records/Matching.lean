import QueryDomain.Records.Pattern
import QueryDomain.Schema.Catalog

/-! Evaluation of a domain on a record in memory. Unset values behave as in the SQL that a domain is
lowered to. -/
namespace QueryDomain

/-- Equality that looks across number kinds; an unset value equals only an unset value. -/
def Value.equals (a b : Value) : Bool :=
  (a.isNull && b.isNull) || a.compare? b == some .eq

def ValueSet.holds (s : ValueSet) (value : Value) : Bool := s.values.any fun m => value.equals m

/-- The value of a field, read by its declared type: an unset boolean is false, and text that is
no date stays text. -/
def Field.valueOf (f : Field) (json : Option Json) : Value :=
  match f.type, json with
  | .boolean, none | .boolean, some .null => .bool false
  | _, none => .null
  | .date, some (.string raw) => ((Date.read? raw).map Value.date).getD (.text raw)
  | .datetime, some (.string raw) => ((Timestamp.read? raw).map Value.timestamp).getD (.text raw)
  | _, some json => (Value.ofJson? json).getD .null

def Json.descend (json : Json) : List String → Option Json
  | [] => some json
  | key :: keys => (json.get? key).bind fun inner => inner.descend keys

/-- A property of a JSON field, always as text. -/
def Json.property (json : Option Json) (path : String) : Value :=
  match json.bind (·.descend (Text.split '.' path)) with
  | none | some .null => .null
  | some (.string s) => .text s
  | some other => .text other.text

namespace Condition

def valueOn (c : Condition) (field : Field) (record : Record) : Value :=
  match c.rest? with
  | some path => Json.property (Record.get? record field.name) path
  | none => field.valueOf (Record.get? record field.name)

def ordered (op : Operator) : Option Ordering → Bool
  | none => false
  | some ordering =>
    match op with
    | .less => ordering == .lt
    | .greater => ordering == .gt
    | .lessOrEqual => ordering != .gt
    | _ => ordering != .lt

def test (c : Condition) (value : Value) : Except Error Bool :=
  match c.operand, c.operator with
  | .set values, .mem => .ok (values.holds value)
  | .set values, .notMem => .ok (!values.holds value)
  | .scalar expected, .equal => .ok (value.equals expected)
  | .scalar expected, .notEqual => .ok (!value.equals expected)
  | .scalar expected, op =>
    if op.isOrdering then .ok (ordered op (value.compare? expected))
    else
      match expected with
      | .text pattern =>
        if op.isPattern then .ok (Pattern.test op pattern value)
        else .error (.searchFailed (.operatorOnOperand c))
      | _ => .error (.searchFailed (.operatorOnOperand c))
  | _, _ => .error (.searchFailed (.operatorOnOperand c))

end Condition

namespace Catalog

def related (catalog : Catalog) (c : Condition) (field : Field) (target : Entity)
    (record : Record) : Except Error (List Record) :=
  match field.type with
  | .many2one =>
    let id := (Record.get? record field.name).bind Json.asInt64?
    .ok (id.bind (catalog.record? target.name)).toList
  | .one2many =>
    match Record.id? record, field.inverseName with
    | some id, some inverse =>
      .ok ((catalog.records target.name).filter fun r =>
        (Record.get? r inverse).bind Json.asInt64? == some id)
    | _, _ => .ok []
  | .many2many =>
    let ids := match Record.get? record field.name with
      | some (.array items) => items.filterMap Json.asInt64?
      | _ => []
    .ok (ids.filterMap (catalog.record? target.name))
  | type => .error (.misuse c (.noTraversal type))

def anyRecord (test : Record → Except Error Bool) : List Record → Except Error Bool
  | [] => .ok false
  | r :: rs => do if ← test r then return true else anyRecord test rs

/-- Whether a record related through the field satisfies the inner domain, which is given by its
evaluation. Through `id` a record is related to itself. -/
def anyRelated (catalog : Catalog) (c : Condition)
    (inner : Option (Entity → Record → Except Error Bool)) (field : Field) (entity : Entity)
    (record : Record) : Except Error Bool :=
  match inner with
  | none => .error (.searchFailed (.traversalOfOperand c))
  | some holds =>
    if field.name = Entity.idName then holds entity record
    else do
      let target ← catalog.comodel c field
      anyRecord (holds target) (← catalog.related c field target record)

def conditionHolds (catalog : Catalog) (c : Condition)
    (inner : Option (Entity → Record → Except Error Bool)) (entity : Entity) (record : Record) :
    Except Error Bool := do
  let field ← entity.conditionField c
  if c.operator.isTraversal then
    let found ← catalog.anyRelated c inner field entity record
    return found == (c.operator == .any)
  else c.test (c.valueOn field record)

mutual

def holds (catalog : Catalog) : Domain → Entity → Record → Except Error Bool
  | .constant value, _, _ => .ok value
  | .negation inner, entity, record => do return !(← holds catalog inner entity record)
  | .nary .and children _, entity, record => holdsAll catalog children entity record
  | .nary .or children _, entity, record => holdsAny catalog children entity record
  | .condition ⟨path, operator, .domain inner, mark⟩, entity, record =>
    catalog.conditionHolds ⟨path, operator, .domain inner, mark⟩
      (some fun e r => holds catalog inner e r) entity record
  | .condition c, entity, record => catalog.conditionHolds c none entity record

def holdsAll (catalog : Catalog) : List Domain → Entity → Record → Except Error Bool
  | [], _, _ => .ok true
  | d :: ds, entity, record => do
    if ← holds catalog d entity record then holdsAll catalog ds entity record else return false

def holdsAny (catalog : Catalog) : List Domain → Entity → Record → Except Error Bool
  | [], _, _ => .ok false
  | d :: ds, entity, record => do
    if ← holds catalog d entity record then return true else holdsAny catalog ds entity record

end

/-- The identifiers of the records that satisfy the domain, in their order. Records without an
identifier are never found. -/
def matching (catalog : Catalog) (entity : Entity) (domain : Domain) :
    List Record → Except Error (List Int)
  | [] => .ok []
  | r :: rs =>
    match Record.id? r with
    | none => matching catalog entity domain rs
    | some id => do
      let found ← catalog.holds domain entity r
      let ids ← matching catalog entity domain rs
      return if found then id :: ids else ids

/-- The values of a field on the records of some identifiers; missing records are left out. -/
def readField (catalog : Catalog) (entity : Entity) (ids : List Int) (name : String) :
    Except Error (List (Int × Value)) :=
  match entity.field? name with
  | none => .error (.unknownField entity.name name s!"read({name})")
  | some field =>
    .ok (ids.filterMap fun id =>
      (catalog.record? entity.name id).map fun r =>
        (id, field.valueOf (Record.get? r field.name)))

end Catalog

end QueryDomain
