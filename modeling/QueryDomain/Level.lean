import QueryDomain.Text.Basic

/-! Stages of optimization, and the mark a node carries once it has reached one. -/
namespace QueryDomain

/-- A domain optimized at a level is also optimized at every lower one. -/
inductive Level where
  | basic
  | search
  | sql
  deriving DecidableEq, Repr

structure UnknownLevel where
  name : String

def UnknownLevel.message (e : UnknownLevel) : String :=
  s!"unknown optimization level '{e.name}'"

namespace Level

def all : List Level := [.basic, .search, .sql]

def rank : Level → Nat
  | basic => 0
  | search => 1
  | sql => 2

def le (a b : Level) : Bool := a.rank ≤ b.rank

def upTo (level : Level) : List Level := all.filter (·.le level)

def text : Level → String
  | basic => "basic"
  | search => "search"
  | sql => "sql"

def longName : Level → String
  | basic => "basic"
  | search => "search_and_access"
  | sql => "to_sql"

def read (given : String) : Except UnknownLevel Level :=
  let name := (Text.trim given).toLower
  match all.find? fun level => level.text == name || level.longName == name with
  | some level => .ok level
  | none => .error ⟨name⟩

end Level

structure Mark where
  entity : String
  level : Level
  deriving DecidableEq, Repr

/-- Whether a node with this mark needs no more work for the entity at the level. -/
def Mark.covers (mark : Mark) (entity : String) (level : Level) : Bool :=
  mark.entity == entity && level.le mark.level

end QueryDomain
