import QueryDomain.Json.Document
import QueryDomain.Schema.Entity

/-! Entities together with their records. -/
namespace QueryDomain

abbrev Record := List (String × Json)

namespace Record

def get? (r : Record) (field : String) : Option Json := Json.member? field r

def id? (r : Record) : Option Int := (get? r Entity.idName).bind Json.asInt64?

end Record

/-- Entities in the order of their names, and the records of each. -/
structure Catalog where
  entities : List Entity := []
  tables : List (String × List Record) := []

namespace Catalog

def putEntity (entity : Entity) : List Entity → List Entity
  | [] => [entity]
  | e :: rest =>
    if entity.name < e.name then entity :: e :: rest
    else if entity.name = e.name then entity :: rest
    else e :: putEntity entity rest

def addEntity (c : Catalog) (entity : Entity) : Catalog :=
  { c with entities := putEntity entity c.entities }

def records (c : Catalog) (entity : String) : List Record :=
  (Json.member? entity c.tables).getD []

def addRecords (c : Catalog) (entity : String) (new : List Record) : Catalog :=
  { c with tables := Json.putMember entity (c.records entity ++ new) c.tables }

def entity? (c : Catalog) (name : String) : Option Entity :=
  c.entities.find? fun e => e.name == name

def entity (c : Catalog) (name : String) : Except Error Entity :=
  match c.entity? name with
  | some entity => .ok entity
  | none => .error (.unknownEntity name)

def record? (c : Catalog) (entity : String) (id : Int) : Option Record :=
  (c.records entity).find? fun r => Record.id? r == some id

def comodel (c : Catalog) (condition : Condition) (field : Field) : Except Error Entity :=
  match field.comodel with
  | some name => c.entity name
  | none => .error (.misuse condition (.noRelatedEntity field.name))

end Catalog

end QueryDomain
