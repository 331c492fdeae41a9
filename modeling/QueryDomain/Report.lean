import QueryDomain.Domain.Wire
import QueryDomain.Sql.Lowering

/-! What is shown of a compiled domain, as lines of text or as JSON. -/
namespace QueryDomain

structure Report where
  optimized : OptimizedDomain
  /-- Only a domain that is ready for SQL has a statement. -/
  statement : Option Statement

namespace Report

def line (label content : String) : String := Text.padRight 8 label ++ " " ++ content ++ "\n"

def paramsJson (statement : Statement) : Json := .array (statement.params.map Value.toJson)

def text (r : Report) : String :=
  let head :=
    line "Entity" r.optimized.entity ++ line "Level" r.optimized.level.text ++
      line "Domain" r.optimized.domain.toJson.text
  match r.statement with
  | none => head
  | some statement =>
    head ++ line "SQL" statement.sql ++ line "Params" (paramsJson statement).text

/-- The members stand in the order of the lines; a statement without parameters has no list of
them. -/
def toJson (r : Report) : Json :=
  let head := [("entity", Json.string r.optimized.entity),
    ("level", .string r.optimized.level.longName), ("domain", r.optimized.domain.toJson)]
  let params (statement : Statement) : List (String × Json) :=
    if statement.params.isEmpty then [] else [("params", paramsJson statement)]
  match r.statement with
  | none => .object head
  | some statement => .object (head ++ ("sql", .string statement.sql) :: params statement)

def render (r : Report) (json : Bool) : String :=
  if json then r.toJson.pretty ++ "\n" else r.text

end Report

end QueryDomain
