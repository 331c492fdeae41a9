import QueryDomain.Text.Basic

/-! The declared type of a field. -/
namespace QueryDomain

inductive FieldType where
  | boolean
  | integer
  | float
  | monetary
  | char
  | text
  | html
  | selection
  | date
  | datetime
  | binary
  | json
  | many2one
  | one2many
  | many2many
  deriving DecidableEq, Repr

structure UnknownFieldType where
  given : String

def UnknownFieldType.message (e : UnknownFieldType) : String :=
  "Unknown field type: " ++ e.given

namespace FieldType

def all : List FieldType :=
  [.boolean, .integer, .float, .monetary, .char, .text, .html, .selection, .date, .datetime,
    .binary, .json, .many2one, .one2many, .many2many]

def name : FieldType → String
  | boolean => "boolean"
  | integer => "integer"
  | float => "float"
  | monetary => "monetary"
  | char => "char"
  | text => "text"
  | html => "html"
  | selection => "selection"
  | date => "date"
  | datetime => "datetime"
  | binary => "binary"
  | json => "json"
  | many2one => "many2one"
  | one2many => "one2many"
  | many2many => "many2many"

def isRelational : FieldType → Bool
  | many2one | one2many | many2many => true
  | _ => false

def isX2Many : FieldType → Bool
  | one2many | many2many => true
  | _ => false

def isTextual : FieldType → Bool
  | char | text | html | selection => true
  | _ => false

def isNumeric : FieldType → Bool
  | integer | float | monetary => true
  | _ => false

def isTemporal : FieldType → Bool
  | date | datetime => true
  | _ => false

def ofName? (name : String) : Option FieldType :=
  all.find? fun type => type.name == name

def ofAlias? (name : String) : Option FieldType :=
  if name = "bool" then some .boolean
  else if name = "int" then some .integer
  else if name = "varchar" then some .char
  else if name = "timestamp" then some .datetime
  else none

def read (given : String) : Except UnknownFieldType FieldType :=
  let name := (Text.trim given).toLower
  match ofName? name <|> ofAlias? name with
  | some type => .ok type
  | none => .error ⟨given⟩

end FieldType

end QueryDomain
