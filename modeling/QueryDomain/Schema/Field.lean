import QueryDomain.Run
import QueryDomain.Sql.Piece

/-! Fields of an entity, with the two hooks by which a field can define its own meaning. -/
namespace QueryDomain

/-- The domain that stands for a condition on a computed field of the named entity. -/
abbrev SearchHook := String → Operator → Operand → Run Error Domain

/-- Writes the SQL of a condition on the rows of an alias. The number is how many aliases are in
use, and the hook returns how many are in use after it. -/
abbrev SqlHook := Dialect → Condition → String → Nat → Except Error (List Piece × Nat)

/-- The link table behind a many2many field: `column1` points at the owner, `column2` at the
related record. -/
structure Relation where
  table : String
  column1 : String
  column2 : String
  deriving DecidableEq, Repr

structure Field where
  name : String
  type : FieldType
  stored : Bool := true
  comodel : Option String := none
  inverseName : Option String := none
  relation : Option Relation := none
  attachment : Bool := false
  delegatedVia : Option String := none
  column : Option String := none
  searchHook : Option SearchHook := none
  sqlHook : Option SqlHook := none

namespace Field

def many2one (name comodel : String) : Field :=
  { name, type := .many2one, comodel := some comodel }

def one2many (name comodel inverse : String) : Field :=
  { name, type := .one2many, comodel := some comodel, inverseName := some inverse }

def many2many (name comodel : String) : Field :=
  { name, type := .many2many, comodel := some comodel }

def computed (f : Field) : Field := { f with stored := false }

def delegated (f : Field) (link : String) : Field :=
  { f with delegatedVia := some link, stored := false }

def columnName (f : Field) : String := f.column.getD f.name

def isRelational (f : Field) : Bool := f.type.isRelational

def isSearchable (f : Field) : Bool := f.stored || f.sqlHook.isSome

end Field

end QueryDomain
