import QueryDomain.Schema.Catalog

/-! Reading a catalog from JSON text. Each part of the format is an object of known keys, or the
list of the values of these keys in their order. Unknown keys are skipped unread; a known key may
not be repeated. -/
namespace QueryDomain

namespace Document

def parts? (names : List String) : Document → Option (List (String × Document))
  | .object members => do
    let named ← members.mapM fun (key, part) => key.map fun name => (name, part)
    let known := named.filter fun (name, _) => names.contains name
    if (known.map (·.1)).Nodup then some known else none
  | .array items => if items.length ≤ names.length then some (names.zip items) else none
  | _ => none

def text? : Document → Option String
  | .string value => value
  | _ => none

def bool? : Document → Option Bool
  | .bool value => some value
  | _ => none

def listOf? {α : Type} (item? : Document → Option α) : Document → Option (List α)
  | .array items => items.mapM item?
  | _ => none

def nullable? {α : Type} (part? : Document → Option α) : Document → Option (Option α)
  | .null => some none
  | part => (part? part).map some

def required? {α : Type} (parts : List (String × Document)) (name : String)
    (part? : Document → Option α) : Option α :=
  (Json.member? name parts).bind part?

def optional? {α : Type} (parts : List (String × Document)) (name : String) (default : α)
    (part? : Document → Option α) : Option α :=
  match Json.member? name parts with
  | some part => part? part
  | none => some default

/-- A name from a closed list: a text, or an object of that one key with nothing in it. -/
def enumerated? {α : Type} (ofName? : String → Option α) : Document → Option α
  | .string name => name.bind ofName?
  | .object [(name, .null)] => name.bind ofName?
  | _ => none

/-- A record, inside the document, the table of records and the list of one entity. -/
def record? (document : Document) : Option Record :=
  match document.value? (depthLimit - 3) with
  | some (.object members) => some members
  | _ => none

def table? : Document → Option (List (String × List Record))
  | .object members =>
    members.mapM fun (entity, records) => do
      return (← entity, ← listOf? record? records)
  | _ => none

end Document

open Document

def Relation.ofDocument? (document : Document) : Option Relation := do
  let parts ← parts? ["table", "column1", "column2"] document
  return {
    table := ← required? parts "table" text?
    column1 := ← required? parts "column1" text?
    column2 := ← required? parts "column2" text?
  }

def Field.ofDocument? (document : Document) : Option Field := do
  let parts ← parts? ["name", "type", "stored", "comodel", "inverse_name", "relation",
    "attachment", "delegated_via", "column"] document
  return {
    name := ← required? parts "name" text?
    type := ← required? parts "type" (enumerated? FieldType.ofName?)
    stored := ← optional? parts "stored" true bool?
    comodel := ← optional? parts "comodel" none (nullable? text?)
    inverseName := ← optional? parts "inverse_name" none (nullable? text?)
    relation := ← optional? parts "relation" none (nullable? Relation.ofDocument?)
    attachment := ← optional? parts "attachment" false bool?
    delegatedVia := ← optional? parts "delegated_via" none (nullable? text?)
    column := ← optional? parts "column" none (nullable? text?)
  }

def Entity.ofDocument? (document : Document) : Option Entity := do
  let parts ← parts? ["name", "table", "fields", "rec_name", "parent_name", "parent_store"]
    document
  return {
    name := ← required? parts "name" text?
    table? := ← optional? parts "table" none (nullable? text?)
    fields := ← optional? parts "fields" [] (listOf? Field.ofDocument?)
    recName := ← optional? parts "rec_name" "name" text?
    parentName := ← optional? parts "parent_name" "parent_id" text?
    parentStore := ← optional? parts "parent_store" false bool?
  }

namespace Catalog

def ofDocument? (document : Document) : Option Catalog := do
  let parts ← parts? ["entities", "records"] document
  let entities ← required? parts "entities" (listOf? Entity.ofDocument?)
  let tables ← optional? parts "records" [] table?
  let catalog := entities.foldl addEntity {}
  return { catalog with tables := tables.foldl (fun sorted (name, records) =>
    Json.putMember name records sorted) [] }

def read? (text : String) : Option Catalog :=
  (Document.read? text).bind ofDocument?

def recordsOfJson? : Json → Option (List Record)
  | .array items =>
    items.mapM fun
      | .object members => some members
      | _ => none
  | _ => none

end Catalog

end QueryDomain
