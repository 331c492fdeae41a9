import QueryDomain.Schema.Field

/-! Entities: a name, a table and fields. -/
namespace QueryDomain

structure Entity where
  name : String
  table? : Option String := none
  fields : List Field := []
  /-- The field by which records are found when a label is given. -/
  recName : String := "name"
  /-- The many2one to the parent in a hierarchy. -/
  parentName : String := "parent_id"
  /-- Whether `parent_path` is maintained. -/
  parentStore : Bool := false

namespace Entity

def idName : String := "id"

def idField : Field := { name := idName, type := .integer }

/-- The column that holds the identifiers from the root down to the record, each followed by a
slash. -/
def parentPath : String := "parent_path"

def defaultTable (name : String) : String := Text.replace '.' "_" name

def table (e : Entity) : String := e.table?.getD (defaultTable e.name)

/-- The first field of the name; `id` exists even if it is not declared. -/
def field? (e : Entity) (name : String) : Option Field :=
  match e.fields.find? fun f => f.name == name with
  | some field => some field
  | none => if name = idName then some idField else none

def addField (e : Entity) (field : Field) : Entity := { e with fields := e.fields ++ [field] }

/-- Maintains `parent_path`, which becomes a field if it is none. -/
def withParentStore (e : Entity) : Entity :=
  let stored := { e with parentStore := true }
  match e.field? parentPath with
  | some _ => stored
  | none => stored.addField { name := parentPath, type := .char }

def conditionField (e : Entity) (c : Condition) : Except Error Field :=
  match e.field? c.head with
  | some field => .ok field
  | none => .error (.unknownField e.name c.head c.display)

def headType? (e : Entity) (path : String) : Option FieldType :=
  (e.field? (Text.cut '.' path).1).map (·.type)

end Entity

end QueryDomain
